import Tomahawk.Fat32.Volume
import Tomahawk.Lib.Chain
import Mathlib.Order.Interval.Finset.Nat

/-!
# Cluster chains

The helpers of `fat32.c` that follow, extend and free chains of clusters. A loop of the source
that has no bound of its own gets a number of steps that covers every walk that ends: the
entries have 28 bits, so a longer walk repeats a cluster and goes on for ever.
-/

namespace Tomahawk.Fat32

open Function Tomahawk.Lib

/-- The steps after which a walk that has not ended never ends. -/
def walkSteps : ℕ := 2 ^ 28 + 1

/-- The walk of `n` links before a read, a write or an update of an entry. -/
def skipLinks (v : Volume) : ℕ → ℕ → Option ℕ
  | 0, cur => some cur
  | n + 1, cur =>
    let cur := fatRead v cur
    if cur = 0 ∨ isEoc cur then none else skipLinks v n cur

/-- The loop of `fat32_chain_length`, with the steps that its guard allows. -/
def chainLengthLoop (v : Volume) : ℕ → ℕ → ℕ → ℕ
  | 0, _, count => count
  | n + 1, cur, count =>
    if 2 ≤ cur ∧ ¬ isEoc cur ∧ cur ≠ clusterBad then
      let next := fatRead v cur
      if next = 0 then count + 1 else chainLengthLoop v n next (count + 1)
    else count

/-- `fat32_chain_length`. -/
def chainLength (v : Volume) (start : ℕ) : ℕ :=
  chainLengthLoop v (v.geo.totalDataClusters + 1) start 0

/-- The candidate of a step of `fat32_alloc_cluster`, scanning from the hint and around. -/
def allocCandidate (start total i : ℕ) : ℕ :=
  let candidate := (start + i) % 2 ^ 32
  if total ≤ candidate then 2 + (candidate - total) else candidate

/-- The scan of `fat32_alloc_cluster` for a free entry. -/
def allocScan (v : Volume) (start total : ℕ) : ℕ → ℕ → Option ℕ
  | 0, _ => none
  | n + 1, i =>
    if fatRead v (allocCandidate start total i) = 0 then some (allocCandidate start total i)
    else allocScan v start total n (i + 1)

/-- The hints after a cluster was taken. -/
def takeCluster (v : Volume) (cluster : ℕ) : Volume :=
  { v with
    nextFree := (cluster + 1) % 2 ^ 32
    freeCount :=
      if v.freeCount ≠ 0xFFFFFFFF ∧ 0 < v.freeCount then v.freeCount - 1 else v.freeCount }

/-- `fat32_alloc_cluster`: the cluster, or 0. -/
def allocCluster (v : Volume) : Volume × ℕ :=
  let total := (v.geo.totalDataClusters + 2) % 2 ^ 32
  let start := if 2 ≤ v.nextFree then v.nextFree else 2
  match allocScan v start total v.geo.totalDataClusters 0 with
  | none => (v, 0)
  | some c => (takeCluster (fatWrite v c clusterEoc) c, c)

/-- `fat32_extend_chain`: the new cluster, or 0. -/
def extendChain (v : Volume) (last : ℕ) : Volume × ℕ :=
  let r := allocCluster v
  if r.2 = 0 then (r.1, 0) else (fatWrite r.1 last r.2, r.2)

/-- The volume after a turn of `fat32_free_chain`. -/
def freeCluster (v : Volume) (cluster : ℕ) : Volume :=
  { fatWrite v cluster 0 with
    freeCount := if v.freeCount ≠ 0xFFFFFFFF then (v.freeCount + 1) % 2 ^ 32 else v.freeCount }

/-- The loop of `fat32_free_chain`, with the steps that its guard allows. -/
def freeLoop : ℕ → Volume → ℕ → Volume
  | 0, v, _ => v
  | n + 1, v, cur =>
    if 2 ≤ cur ∧ ¬ isEoc cur ∧ cur ≠ clusterBad then
      freeLoop n (freeCluster v cur) (fatRead v cur)
    else v

/-- `fat32_free_chain`. -/
def freeChain (v : Volume) (start : ℕ) : Volume :=
  freeLoop (v.geo.totalDataClusters + 1) v start

/-- The walk to the last cluster of a chain, before it is extended. -/
def lastLoop (v : Volume) : ℕ → ℕ → Option ℕ
  | 0, _ => none
  | n + 1, last =>
    let next := fatRead v last
    if 2 ≤ next ∧ ¬ isEoc next then lastLoop v n next else some last

/-- The last cluster of the chain from `start` on; `none` when the walk does not end. -/
def lastCluster (v : Volume) (start : ℕ) : Option ℕ := lastLoop v walkSteps start

/-! ## Chains of a volume -/

/-- The clusters of the chain from `c` on: data clusters up to an end mark. -/
def Volume.Chain (v : Volume) : ℕ → List ℕ → Prop := IsChain v.geo.IsData isEoc v.fat

instance (v : Volume) (c : ℕ) (l : List ℕ) : Decidable (v.Chain c l) := IsChain.decidable c l

/-- The hint is at most the end of the data clusters. -/
def Volume.HintOk (v : Volume) : Prop := v.nextFree ≤ v.geo.totalDataClusters + 2

instance (v : Volume) : Decidable v.HintOk := inferInstanceAs (Decidable (_ ≤ _))

variable {v v' : Volume} {c x start : ℕ} {l l' : List ℕ} {n i total last : ℕ} {t t' : List ℕ}
  {v'' : Volume}

theorem Volume.Chain.nodup (h : v.Chain c l) (hsound : v.geo.Sound) : l.Nodup :=
  IsChain.nodup hsound.entriesOk.stop h

theorem Volume.Chain.isData (h : v.Chain c l) (hx : x ∈ l) : v.geo.IsData x := IsChain.mem_ok h hx

theorem Volume.Chain.isData_start (h : v.Chain c l) (hl : l ≠ []) : v.geo.IsData c := by
  obtain ⟨y, ys, rfl⟩ := List.exists_cons_of_ne_nil hl
  exact h.1 ▸ h.2.1

/-- A chain stays when its entries do. -/
theorem Volume.Chain.congr (h : v.Chain c l) (hgeo : v'.geo = v.geo)
    (hfat : ∀ y ∈ l, v'.fat y = v.fat y) : v'.Chain c l := by
  unfold Volume.Chain
  rw [hgeo]
  exact IsChain.congr h hfat

theorem Volume.HintOk.congr (h : v.HintOk) (hgeo : v'.geo = v.geo)
    (hnext : v'.nextFree = v.nextFree) : v'.HintOk := by
  unfold Volume.HintOk at h ⊢
  rwa [hnext, hgeo]

/-- The clusters of a chain are not free. -/
theorem Volume.Chain.fat_ne_zero (h : v.Chain c l) (hx : x ∈ l) : v.fat x ≠ 0 := by
  intro hzero
  rcases IsChain.next_mem h hx with hmem | hstop
  · have := (h.isData hmem).1
    omega
  · rw [hzero] at hstop
    exact absurd hstop (by decide)

theorem Volume.Chain.unique (h : v.Chain c l) (h' : v.Chain c l') (hsound : v.geo.Sound) :
    l = l' := IsChain.unique hsound.entriesOk.stop h h'

/-- A list of different data clusters is not longer than the volume. -/
theorem length_le_of_isData (hnodup : l.Nodup) (hdata : ∀ x ∈ l, v.geo.IsData x) :
    l.length ≤ v.geo.totalDataClusters := by
  have hsub : l.toFinset ⊆ Finset.Ico 2 (v.geo.totalDataClusters + 2) := by
    intro x hx
    obtain ⟨hlow, hhigh⟩ := hdata x (List.mem_toFinset.mp hx)
    exact Finset.mem_Ico.mpr ⟨hlow, hhigh⟩
  have hcard := Finset.card_le_card hsub
  rw [List.toFinset_card_of_nodup hnodup, Nat.card_Ico] at hcard
  omega

theorem Volume.Chain.length_le (h : v.Chain c l) (hok : v.geo.EntriesOk) :
    l.length ≤ v.geo.totalDataClusters :=
  length_le_of_isData (IsChain.nodup hok.stop h) fun _ hx => h.isData hx

/-- Reading the entry of a cluster of a chain. -/
theorem Volume.Chain.fatRead_eq (h : v.Chain c l) (hx : x ∈ l) : fatRead v x = v.fat x :=
  Fat32.fatRead_eq (h.isData hx).2

/-! ## Walks -/

section

variable (h : v.Chain c l)
include h

/-- The walk reaches the cluster at its position. -/
theorem Volume.Chain.skipLinks_eq (hsound : v.geo.Sound) (hn : n < l.length) :
    skipLinks v n c = some l[n] := by
  induction n generalizing c l with
  | zero =>
    cases l with
    | nil => simp at hn
    | cons x xs => exact congrArg some h.1
  | succ n ih =>
    cases l with
    | nil => simp at hn
    | cons x xs =>
      have hread := h.fatRead_eq (x := x) (by simp)
      obtain ⟨rfl, hx, hxs⟩ := h
      have hn' : n < xs.length := by simpa using hn
      have hnext : v.geo.IsData (v.fat c) := by
        cases xs with
        | nil => simp at hn'
        | cons y ys =>
          obtain ⟨hy, hdata, -⟩ := hxs
          rw [hy]
          exact hdata
      have hne : ¬ (v.fat c = 0 ∨ isEoc (v.fat c)) := by
        rintro (hzero | heoc)
        · have := hnext.1
          omega
        · exact hsound.not_isEoc hnext heoc
      rw [skipLinks]
      simp only [hread, if_neg hne]
      exact ih hxs hn'

/-- The walk fails behind the end of the chain. -/
theorem Volume.Chain.skipLinks_none (hl : l ≠ []) (hn : l.length ≤ n) :
    skipLinks v n c = none := by
  induction l generalizing c n with
  | nil => exact absurd rfl hl
  | cons x xs ih =>
    have hread := h.fatRead_eq (x := x) (by simp)
    obtain ⟨rfl, hx, hxs⟩ := h
    simp only [List.length_cons] at hn
    obtain ⟨n, rfl⟩ : ∃ m, n = m + 1 := ⟨n - 1, by omega⟩
    simp only [skipLinks, hread]
    by_cases hstop : v.fat c = 0 ∨ isEoc (v.fat c)
    · rw [if_pos hstop]
    · rw [if_neg hstop]
      refine ih hxs (fun hnil => ?_) (by omega)
      subst hnil
      exact hstop (.inr hxs)

/-- The length of a chain is counted. -/
theorem Volume.Chain.chainLengthLoop_eq (hok : v.geo.EntriesOk) (hn : l.length < n) (count : ℕ) :
    chainLengthLoop v n c count = count + l.length := by
  induction l generalizing c n count with
  | nil =>
    obtain ⟨n, rfl⟩ : ∃ m, n = m + 1 := ⟨n - 1, by simp at hn; omega⟩
    have hstop : isEoc c := h
    rw [chainLengthLoop, if_neg fun hgo => hgo.2.1 hstop]
    rfl
  | cons x xs ih =>
    have hread := h.fatRead_eq (x := x) (by simp)
    have hnezero := h.fat_ne_zero (x := x) (by simp)
    obtain ⟨rfl, hx, hxs⟩ := h
    simp only [List.length_cons] at hn ⊢
    obtain ⟨n, rfl⟩ : ∃ m, n = m + 1 := ⟨n - 1, by omega⟩
    rw [chainLengthLoop, if_pos ⟨hx.1, hok.stop c hx, hok.ne_bad hx⟩]
    simp only [hread, if_neg hnezero]
    rw [ih hxs (by omega)]
    omega

theorem Volume.Chain.chainLength_eq (hok : v.geo.EntriesOk) :
    chainLength v c = l.length := by
  have hlength := h.length_le hok
  rw [chainLength, h.chainLengthLoop_eq hok (by omega), Nat.zero_add]

theorem Volume.Chain.lastLoop_eq (hl : l ≠ []) (hsound : v.geo.Sound) (hn : l.length ≤ n) :
    lastLoop v n c = some (l.getLast hl) := by
  induction l generalizing c n with
  | nil => exact absurd rfl hl
  | cons x xs ih =>
    have hread := h.fatRead_eq (x := x) (by simp)
    obtain ⟨rfl, hx, hxs⟩ := h
    simp only [List.length_cons] at hn
    obtain ⟨n, rfl⟩ : ∃ m, n = m + 1 := ⟨n - 1, by omega⟩
    simp only [lastLoop, hread]
    cases xs with
    | nil =>
      have hstop : isEoc (v.fat c) := hxs
      rw [if_neg fun hgo => hgo.2 hstop]
      rfl
    | cons y ys =>
      have hy := hxs.1
      have hdata := hxs.2.1
      rw [if_pos (by rw [hy]; exact ⟨hdata.1, hsound.not_isEoc hdata⟩),
        ih hxs (List.cons_ne_nil y ys) (by omega), List.getLast_cons (List.cons_ne_nil y ys)]

/-- A walk that ends does so in the steps that are allowed. -/
theorem Volume.Chain.length_lt_walkSteps (hsound : v.geo.Sound) :
    l.length < walkSteps := by
  have hlength := h.length_le hsound.entriesOk
  have hmarks := hsound.clusters_le
  unfold walkSteps
  omega

/-- The walk to the last cluster ends there. -/
theorem Volume.Chain.lastCluster_eq (hl : l ≠ []) (hsound : v.geo.Sound) :
    lastCluster v c = some (l.getLast hl) :=
  h.lastLoop_eq hl hsound (h.length_lt_walkSteps hsound).le

end

/-! ## Allocation -/

/-- The cluster `x` was allocated: its entry is an end mark now, and nothing else changed. -/
structure Allocated (v v' : Volume) (x : ℕ) : Prop where
  isData : v.geo.IsData x
  free : v.fat x = 0
  fat : v'.fat = update v.fat x clusterEoc
  data : v'.data = v.data
  geo : v'.geo = v.geo
  hint : v'.HintOk

/-- Where `fat32_alloc_cluster` begins to scan. -/
def Volume.scanStart (v : Volume) : ℕ := if 2 ≤ v.nextFree then v.nextFree else 2

/-- With a sound hint the candidates are the data clusters. -/
theorem isData_iff_allocCandidate (hsound : v.geo.Sound) (hhint : v.HintOk) :
    v.geo.IsData c ↔ ∃ i < v.geo.totalDataClusters,
      allocCandidate v.scanStart ((v.geo.totalDataClusters + 2) % 2 ^ 32) i = c := by
  have hmarks := hsound.clusters_le
  unfold Volume.HintOk at hhint
  have hlow : 2 ≤ v.scanStart := by unfold Volume.scanStart; split_ifs <;> omega
  have hhigh : v.scanStart ≤ v.geo.totalDataClusters + 2 := by
    unfold Volume.scanStart
    split_ifs <;> omega
  have hcandidate : ∀ i < v.geo.totalDataClusters,
      allocCandidate v.scanStart ((v.geo.totalDataClusters + 2) % 2 ^ 32) i =
        if v.geo.totalDataClusters + 2 ≤ v.scanStart + i then
          v.scanStart + i - v.geo.totalDataClusters else v.scanStart + i := by
    intro i hi
    rw [allocCandidate, Nat.mod_eq_of_lt (a := v.geo.totalDataClusters + 2) (by omega),
      Nat.mod_eq_of_lt (by omega)]
    split_ifs <;> omega
  unfold Geometry.IsData
  constructor
  · rintro ⟨hc, hc'⟩
    by_cases hle : v.scanStart ≤ c
    · refine ⟨c - v.scanStart, by omega, ?_⟩
      rw [hcandidate _ (by omega), if_neg (by omega)]
      omega
    · refine ⟨c + v.geo.totalDataClusters - v.scanStart, by omega, ?_⟩
      rw [hcandidate _ (by omega), if_pos (by omega)]
      omega
  · rintro ⟨i, hi, rfl⟩
    rw [hcandidate i hi]
    split_ifs <;> omega

/-- The scan returns the first candidate that is free. -/
theorem allocScan_eq_find? : allocScan v start total n i =
    ((List.range' i n).map (allocCandidate start total)).find? (fatRead v · == 0) := by
  induction n generalizing i with
  | zero => rfl
  | succ n ih =>
    rw [allocScan, List.range'_succ, List.map_cons, ih]
    split_ifs with hfree
    · rw [List.find?_cons_of_pos (by simpa using hfree)]
    · rw [List.find?_cons_of_neg (by simpa using hfree)]

/-- The scan finds a free data cluster, or there is none. -/
theorem allocScan_cases (hsound : v.geo.Sound) (hhint : v.HintOk) {r : Option ℕ}
    (h : allocScan v v.scanStart ((v.geo.totalDataClusters + 2) % 2 ^ 32)
      v.geo.totalDataClusters 0 = r) :
    (r = none ∧ ∀ c, v.geo.IsData c → v.fat c ≠ 0) ∨
      ∃ x, r = some x ∧ v.geo.IsData x ∧ v.fat x = 0 := by
  rw [allocScan_eq_find?] at h
  have hmem : ∀ c, c ∈ (List.range' 0 v.geo.totalDataClusters).map
      (allocCandidate v.scanStart ((v.geo.totalDataClusters + 2) % 2 ^ 32)) ↔ v.geo.IsData c := by
    simp [isData_iff_allocCandidate hsound hhint]
  cases r with
  | none =>
    refine .inl ⟨rfl, fun c hc => ?_⟩
    have hne := List.find?_eq_none.mp h c ((hmem c).mpr hc)
    rwa [fatRead_eq hc.2, beq_iff_eq] at hne
  | some x =>
    have hx := (hmem x).mp (List.mem_of_find?_eq_some h)
    have hfree := List.find?_some h
    rw [fatRead_eq hx.2, beq_iff_eq] at hfree
    exact .inr ⟨x, rfl, hx, hfree⟩

/-- Allocation takes a free data cluster, or there is none. -/
theorem allocCluster_cases (hsound : v.geo.Sound) (hhint : v.HintOk) :
    (allocCluster v = (v, 0) ∧ ∀ c, v.geo.IsData c → v.fat c ≠ 0) ∨
      ∃ w x, allocCluster v = (w, x) ∧ x ≠ 0 ∧ Allocated v w x := by
  rw [allocCluster, ← Volume.scanStart]
  rcases allocScan_cases hsound hhint rfl with ⟨hnone, hfull⟩ | ⟨x, hsome, hx, hfree⟩
  · simp only [hnone]
    exact .inl ⟨trivial, hfull⟩
  · simp only [hsome]
    have hlt := hx.2
    have hne : x ≠ 0 := Nat.ne_of_gt (Nat.lt_of_lt_of_le two_pos hx.1)
    refine .inr ⟨_, x, rfl, hne, hx, hfree, fat_fatWrite hsound.entriesOk hx _,
      data_fatWrite hsound hlt _,
      rfl, ?_⟩
    change (x + 1) % 2 ^ 32 ≤ v.geo.totalDataClusters + 2
    omega

/-- A chain stays when a cluster is allocated. -/
theorem Volume.Chain.allocated (h : v.Chain c l) (ha : Allocated v v' x) : v'.Chain c l := by
  refine h.congr ha.geo fun y hy => ?_
  have hne : y ≠ x := by
    rintro rfl
    exact h.fat_ne_zero hy ha.free
  rw [ha.fat, update_of_ne hne]

/-- The allocated cluster is a chain of its own. -/
theorem Allocated.chain (ha : Allocated v v' x) : v'.Chain x [x] := by
  refine ⟨rfl, by rw [ha.geo]; exact ha.isData, ?_⟩
  rw [ha.fat, update_self]
  exact isEoc_clusterEoc

/-- The cluster `x` was appended after the cluster `last`. -/
structure Extended (v v' : Volume) (last x : ℕ) : Prop where
  isData : v.geo.IsData x
  free : v.fat x = 0
  fat : v'.fat = update (update v.fat x clusterEoc) last x
  data : v'.data = v.data
  geo : v'.geo = v.geo
  hint : v'.HintOk

/-- Extending appends a free data cluster, or there is none. -/
theorem extendChain_cases (hsound : v.geo.Sound) (hhint : v.HintOk) (hlast : v.geo.IsData last) :
    (extendChain v last = (v, 0) ∧ ∀ c, v.geo.IsData c → v.fat c ≠ 0) ∨
      ∃ w x, extendChain v last = (w, x) ∧ x ≠ 0 ∧ Extended v w last x := by
  rw [extendChain]
  rcases allocCluster_cases hsound hhint with ⟨heq, hfull⟩ | ⟨w, x, heq, hne, ha⟩
  · left
    simp only [heq, if_true]
    exact ⟨trivial, hfull⟩
  · right
    have hsound' : w.geo.Sound := ha.geo ▸ hsound
    have hlast' : w.geo.IsData last := ha.geo ▸ hlast
    have hmarks := hsound.clusters_le
    have hlt := ha.isData.2
    simp only [heq, if_neg hne]
    refine ⟨_, x, rfl, hne, ha.isData, ha.free, ?_, ?_, ha.geo, ha.hint⟩
    · rw [fat_fatWrite hsound'.entriesOk hlast', ha.fat, Nat.mod_eq_of_lt (by omega)]
    · rw [data_fatWrite hsound' hlast'.2, ha.data]

section

variable (h : v.Chain c l)
include h

/-- The chain that was extended. -/
theorem Volume.Chain.extended (hl : l ≠ []) (hsound : v.geo.Sound)
    (he : Extended v v' (l.getLast hl) x) : v'.Chain c (l ++ [x]) := by
  have hnew : x ∉ l := fun hmem => h.fat_ne_zero hmem he.free
  have hne : x ≠ l.getLast hl := fun heq => hnew (heq ▸ List.getLast_mem hl)
  unfold Volume.Chain
  rw [he.geo]
  refine IsChain.append h hl hnew he.isData (h.nodup hsound) ?_ ?_ fun y hy hy' => ?_
  · rw [he.fat, update_self]
  · rw [he.fat, update_of_ne hne, update_self]
    exact isEoc_clusterEoc
  · have hyx : y ≠ x := fun heq => hnew (heq ▸ hy)
    rw [he.fat, update_of_ne hy', update_of_ne hyx]

/-- A chain stays when another one is extended. -/
theorem Volume.Chain.extended_other (hlast : last ∉ l) (he : Extended v v' last x) :
    v'.Chain c l := by
  refine h.congr he.geo fun y hy => ?_
  have hyl : y ≠ last := fun heq => hlast (heq ▸ hy)
  have hyx : y ≠ x := by
    rintro rfl
    exact h.fat_ne_zero hy he.free
  rw [he.fat, update_of_ne hyl, update_of_ne hyx]

/-! ## Freeing -/

/-- What is left of the volume when a chain was freed. -/
structure Freed (v v' : Volume) (l : List ℕ) : Prop where
  fat : v'.fat = fun y => if y ∈ l then 0 else v.fat y
  data : v'.data = v.data
  geo : v'.geo = v.geo
  nextFree : v'.nextFree = v.nextFree

omit h in
/-- The rest of a chain after its first cluster was freed. -/
theorem Volume.Chain.freeCluster {xs : List ℕ} (h : v.Chain c (c :: xs))
    (hok : v.geo.EntriesOk) : (Fat32.freeCluster v c).Chain (v.fat c) xs := by
  have hnodup := IsChain.nodup hok.stop h
  refine Volume.Chain.congr h.2.2 rfl fun y hy => ?_
  have hfat : (Fat32.freeCluster v c).fat = update v.fat c 0 := fat_fatWrite hok h.2.1 0
  rw [hfat, update_of_ne (ne_of_mem_of_not_mem hy (List.nodup_cons.mp hnodup).1)]

/-- Freeing a chain frees exactly its clusters. -/
theorem Volume.Chain.freeLoop_fat (hok : v.geo.EntriesOk) (hn : l.length < n) :
    (freeLoop n v c).fat = fun y => if y ∈ l then 0 else v.fat y := by
  induction l generalizing v c n with
  | nil =>
    obtain ⟨n, rfl⟩ : ∃ m, n = m + 1 := ⟨n - 1, by simp at hn; omega⟩
    have hstop : isEoc c := h
    rw [freeLoop, if_neg fun hgo => hgo.2.1 hstop]
    simp
  | cons x xs ih =>
    have hread := h.fatRead_eq (x := x) (by simp)
    obtain rfl := h.1
    have hx := h.2.1
    simp only [List.length_cons] at hn
    obtain ⟨n, rfl⟩ : ∃ m, n = m + 1 := ⟨n - 1, by omega⟩
    have hfat : (Fat32.freeCluster v c).fat = update v.fat c 0 := fat_fatWrite hok hx 0
    rw [freeLoop, if_pos ⟨hx.1, hok.stop c hx, hok.ne_bad hx⟩, hread,
      ih (h.freeCluster hok) hok (by omega), hfat]
    funext y
    by_cases hy : y = c
    · simp [hy]
    · simp [hy]

/-- Freeing a chain changes nothing but entries. -/
theorem Volume.Chain.freeLoop_rest (hsound : v.geo.Sound) (n : ℕ) :
    (freeLoop n v c).data = v.data ∧ (freeLoop n v c).geo = v.geo ∧
      (freeLoop n v c).nextFree = v.nextFree := by
  induction n generalizing v c l with
  | zero => exact ⟨rfl, rfl, rfl⟩
  | succ n ih =>
    rw [freeLoop]
    split_ifs with hgo
    · cases l with
      | nil => exact absurd h hgo.2.1
      | cons x xs =>
        obtain rfl := h.1
        rw [h.fatRead_eq (by simp)]
        obtain ⟨hdata, hrest⟩ := ih (h.freeCluster hsound.entriesOk) hsound
        exact ⟨hdata.trans (data_fatWrite hsound h.2.1.2 0), hrest⟩
    · exact ⟨rfl, rfl, rfl⟩

theorem Volume.Chain.freeChain_fat (hok : v.geo.EntriesOk) :
    (freeChain v c).fat = fun y => if y ∈ l then 0 else v.fat y :=
  h.freeLoop_fat hok (Nat.lt_succ_of_le (h.length_le hok))

theorem Volume.Chain.freed (hsound : v.geo.Sound) : Freed v (freeChain v c) l := by
  obtain ⟨hdata, hgeo, hnext⟩ := h.freeLoop_rest hsound (v.geo.totalDataClusters + 1)
  exact ⟨h.freeChain_fat hsound.entriesOk, hdata, hgeo, hnext⟩

/-- A chain stays when another one is freed. -/
theorem Volume.Chain.freed_other (hf : Freed v v' l') (hdisj : l.Disjoint l') : v'.Chain c l :=
  h.congr hf.geo fun y hy => (congrFun hf.fat y).trans (if_neg (hdisj hy))

end

/-! ## What an operation leaves alone -/

/-- Only the data of one cluster changed. -/
structure OnlyCluster (v v' : Volume) (c : ℕ) : Prop where
  fat : v'.fat = v.fat
  data : ∀ c' ≠ c, v'.data c' = v.data c'
  geo : v'.geo = v.geo
  nextFree : v'.nextFree = v.nextFree

theorem onlyCluster_putCluster (hsound : v.geo.Sound) (hc : v.geo.IsData c) (buf : Bytes) :
    OnlyCluster v (v.putCluster c buf) c := by
  refine ⟨fat_putCluster hsound buf, fun c' hc' => ?_, rfl, rfl⟩
  rw [data_putCluster hc, update_of_ne hc']

theorem Volume.Chain.onlyCluster (h : v.Chain c l) (ho : OnlyCluster v v' x) :
    v'.Chain c l :=
  h.congr ho.geo fun y _ => congrFun ho.fat y

theorem Volume.Chain.of_onlyCluster (h : v'.Chain c l) (ho : OnlyCluster v v' x) :
    v.Chain c l :=
  h.congr ho.geo.symm fun y _ => congrFun ho.fat.symm y

/-- Chains that do not touch `t` stay, with their data. Free clusters are on no chain. -/
structure Keeps (v v' : Volume) (t : List ℕ) : Prop where
  geo : v'.geo = v.geo
  hint : v'.HintOk
  chain : ∀ c l, v.Chain c l → l.Disjoint t → v'.Chain c l ∧ ∀ x ∈ l, v'.data x = v.data x

theorem Keeps.refl (hhint : v.HintOk) (t : List ℕ) : Keeps v v t :=
  ⟨rfl, hhint, fun _ _ h _ => ⟨h, fun _ _ => rfl⟩⟩

theorem Keeps.mono (h : Keeps v v' t) (ht : ∀ x ∈ t, x ∈ t' ∨ v.fat x = 0) :
    Keeps v v' t' := by
  refine ⟨h.geo, h.hint, fun c l hl hdisj => h.chain c l hl fun x hx hxt => ?_⟩
  rcases ht x hxt with hmem | hfree
  · exact hdisj hx hmem
  · exact hl.fat_ne_zero hx hfree

theorem Keeps.trans (h : Keeps v v' t) (h' : Keeps v' v'' t') (ht : ∀ x ∈ t', x ∈ t ∨ v.fat x = 0) :
    Keeps v v'' t := by
  refine ⟨h'.geo.trans h.geo, h'.hint, fun c l hl hdisj => ?_⟩
  obtain ⟨hl', hdata⟩ := h.chain c l hl hdisj
  have hdisj' : l.Disjoint t' := by
    intro x hx hxt
    rcases ht x hxt with hmem | hfree
    · exact hdisj hx hmem
    · exact hl.fat_ne_zero hx hfree
  obtain ⟨hl'', hdata'⟩ := h'.chain c l hl' hdisj'
  exact ⟨hl'', fun x hx => (hdata' x hx).trans (hdata x hx)⟩

theorem Allocated.keeps (ha : Allocated v v' x) : Keeps v v' [] :=
  ⟨ha.geo, ha.hint, fun _ _ hl _ => ⟨hl.allocated ha, fun _ _ => by rw [ha.data]⟩⟩

theorem Extended.keeps (he : Extended v v' last x) : Keeps v v' [last] := by
  refine ⟨he.geo, he.hint, fun c l hl hdisj => ⟨?_, fun _ _ => by rw [he.data]⟩⟩
  exact hl.extended_other (fun hmem => hdisj hmem (by simp)) he

theorem OnlyCluster.hintOk (ho : OnlyCluster v v' x) (hhint : v.HintOk) : v'.HintOk :=
  hhint.congr ho.geo ho.nextFree

theorem OnlyCluster.keeps (ho : OnlyCluster v v' x) (hhint : v.HintOk) : Keeps v v' [x] := by
  refine ⟨ho.geo, ho.hintOk hhint, fun c l hl hdisj => ⟨hl.onlyCluster ho, fun y hy => ?_⟩⟩
  exact ho.data y fun heq => hdisj hy (by simp [heq])

/-- Extending a chain and writing its new cluster. -/
theorem Extended.keeps_chain {u : Volume} {hl : l ≠ []} (he : Extended v v' (l.getLast hl) x)
    (ho : OnlyCluster v' u x) : Keeps v u l := by
  refine Keeps.trans (t := l) (he.keeps.mono fun y hy => ?_) (ho.keeps he.hint) fun y hy => ?_
  · rw [List.mem_singleton.mp hy]
    exact .inl (List.getLast_mem hl)
  · rw [List.mem_singleton.mp hy]
    exact .inr he.free

/-- Only the data of some clusters changed. -/
structure OnlyClusters (v v' : Volume) (l : List ℕ) : Prop where
  fat : v'.fat = v.fat
  data : ∀ c ∉ l, v'.data c = v.data c
  geo : v'.geo = v.geo
  nextFree : v'.nextFree = v.nextFree

theorem OnlyClusters.refl (v : Volume) (l : List ℕ) : OnlyClusters v v l :=
  ⟨rfl, fun _ _ => rfl, rfl, rfl⟩

/-- One cluster of the list, and then the others. -/
theorem OnlyCluster.trans (ho : OnlyCluster v v' x) (ho' : OnlyClusters v' v'' l) :
    OnlyClusters v v'' (x :: l) := by
  refine ⟨ho'.fat.trans ho.fat, fun c hc => ?_, ho'.geo.trans ho.geo,
    ho'.nextFree.trans ho.nextFree⟩
  rw [ho'.data c fun hmem => hc (by simp [hmem]), ho.data c fun heq => hc (by simp [heq])]

theorem OnlyClusters.chain (ho : OnlyClusters v v' l') (h : v.Chain c l) : v'.Chain c l :=
  h.congr ho.geo fun y _ => congrFun ho.fat y

theorem OnlyClusters.keeps (ho : OnlyClusters v v' l) (hhint : v.HintOk) : Keeps v v' l :=
  ⟨ho.geo, hhint.congr ho.geo ho.nextFree,
    fun _ _ hl' hdisj => ⟨ho.chain hl', fun x hx => ho.data x (hdisj hx)⟩⟩

theorem Freed.keeps (hf : Freed v v' l) (hhint : v.HintOk) : Keeps v v' l :=
  ⟨hf.geo, hhint.congr hf.geo hf.nextFree,
    fun _ _ hl' hdisj => ⟨hl'.freed_other hf hdisj, fun _ _ => by rw [hf.data]⟩⟩

end Tomahawk.Fat32
