import Tomahawk.Fat32.Files

/-!
# Contents of files

The bytes of a chain are those of its clusters, one behind the other. The loops of `read_at` and
`write_at` are one `memcpy` from and to these bytes, and a chain can be extended as long as there
are free clusters.
-/

namespace Tomahawk.Fat32

open Tomahawk.Lib

variable {v v' : Volume} {c cur off n p : ℕ} {k k' : List ℕ} {frames fuel m : ℕ} {vp : Vnode}

/-- The bytes of a list of clusters, one behind the other. -/
def chainBytes (v : Volume) (k : List ℕ) : Bytes := fun p =>
  match k[p / v.geo.clusterSize]? with
  | some c => v.data c (p % v.geo.clusterSize)
  | none => 0

theorem chainBytes_first (hp : p < v.geo.clusterSize) (c : ℕ) (k : List ℕ) :
    chainBytes v (c :: k) p = v.data c p := by
  rw [chainBytes, Nat.div_eq_of_lt hp, Nat.mod_eq_of_lt hp]
  rfl

theorem chainBytes_drop (hsound : v.geo.Sound) (k : List ℕ) (i p : ℕ) :
    chainBytes v (k.drop i) p = chainBytes v k (i * v.geo.clusterSize + p) := by
  have hpos := hsound.clusterSize_pos
  unfold chainBytes
  rw [Nat.mul_comm i, Nat.mul_add_div hpos, Nat.mul_add_mod, List.getElem?_drop]

theorem chainBytes_rest (hsound : v.geo.Sound) (c : ℕ) (k : List ℕ) (p : ℕ) :
    chainBytes v (c :: k) (v.geo.clusterSize + p) = chainBytes v k p := by
  have hdrop := chainBytes_drop hsound (c :: k) 1 p
  rw [Nat.one_mul, List.drop_one, List.tail_cons] at hdrop
  exact hdrop.symm

theorem chainBytes_congr (hgeo : v'.geo = v.geo) (hdata : ∀ c ∈ k, v'.data c = v.data c) :
    chainBytes v' k = chainBytes v k := by
  funext p
  unfold chainBytes
  rw [hgeo]
  cases hc : k[p / v.geo.clusterSize]? with
  | none => rfl
  | some c =>
    change v'.data c _ = v.data c _
    rw [hdata c (List.mem_of_getElem? hc)]

/-- Clusters of zeros at the end do not show. -/
theorem chainBytes_zeros (hzero : ∀ c ∈ k', v.data c = fun _ => 0) :
    chainBytes v (k ++ k') = chainBytes v k := by
  funext p
  unfold chainBytes
  by_cases hp : p / v.geo.clusterSize < k.length
  · rw [List.getElem?_append_left hp]
  · rw [List.getElem?_append_right (by omega), List.getElem?_eq_none (l := k) (by omega)]
    cases hc : k'[p / v.geo.clusterSize - k.length]? with
    | none => rfl
    | some c =>
      change v.data c _ = 0
      rw [hzero c (List.mem_of_getElem? hc)]

/-- A chain that was extended by clear clusters has the bytes it had. -/
theorem GrownFile.chainBytes {ext : List ℕ} (h : GrownFile frames v v' c k ext) (hk : v.Chain c k)
    (hframes : frames ≠ 0) :
    Fat32.chainBytes v' (k ++ ext) = Fat32.chainBytes v k := by
  rw [chainBytes_zeros (h.zero hframes)]
  exact chainBytes_congr h.keeps.geo fun y hy =>
    h.data y fun hmem => hk.fat_ne_zero hy (h.free y hmem)

/-! ## The loops -/

/-- The read loop copies the bytes of the chain, up to its end. -/
theorem Volume.Chain.readLoop_eq (h : v.Chain cur k) (hsound : v.geo.Sound)
    (hoff : off < v.geo.clusterSize) (hfuel : n ≤ fuel) :
    readLoop v fuel cur off n =
      (chainBytes v k).slice off (min n (k.length * v.geo.clusterSize - off)) := by
  have hpos := hsound.clusterSize_pos
  induction fuel generalizing cur k off n with
  | zero =>
    obtain rfl : n = 0 := by omega
    rfl
  | succ fuel ih =>
    by_cases hzero : n = 0
    · subst hzero
      rfl
    cases k with
    | nil =>
      have hstop : isEoc cur := h
      rw [readLoop, if_neg fun hgo => hgo.2.2 hstop]
      simp
    | cons c ys =>
      have hread := h.fatRead_eq (x := c) (by simp)
      obtain ⟨rfl, hc, hys⟩ := h
      have hgo : 0 < n ∧ 2 ≤ cur ∧ ¬ isEoc cur := ⟨by omega, hc.1, hsound.not_isEoc hc⟩
      simp only [List.length_cons, Nat.add_mul]
      rw [readLoop, if_pos hgo, hread]
      simp only
      -- The part in this cluster, and the part in the clusters behind it.
      generalize ht : min n (v.geo.clusterSize - off) = t
      have hfirst : (clusterBuf v cur).slice off t = (chainBytes v (cur :: ys)).slice off t := by
        refine Bytes.slice_congr fun i hi => ?_
        rw [clusterBuf_eq hc (by omega), chainBytes_first (by omega)]
      have hrest : readLoop v fuel (v.fat cur) 0 (n - t) =
          (chainBytes v (cur :: ys)).slice (off + t)
            (min (n - t) (ys.length * v.geo.clusterSize - 0)) := by
        rw [ih hys hpos (by omega)]
        refine Bytes.slice_congr fun i hi => ?_
        have hedge : off + t + i = v.geo.clusterSize + (0 + i) := by omega
        rw [hedge, chainBytes_rest hsound]
      rw [hfirst, hrest, Bytes.slice_append]
      congr 1
      omega

/-- The write loop copies its bytes to the chain, up to its end. -/
theorem Volume.Chain.writeLoop_eq (h : v.Chain cur k) (hsound : v.geo.Sound) (src : Bytes)
    (from_ : ℕ) (hoff : off < v.geo.clusterSize) (hfuel : n ≤ fuel) :
    chainBytes (writeLoop src fuel v cur off from_ n).1 k =
        (chainBytes v k).copyIn off (min n (k.length * v.geo.clusterSize - off)) src from_ ∧
      (writeLoop src fuel v cur off from_ n).2 = min n (k.length * v.geo.clusterSize - off) := by
  induction fuel generalizing v cur k off from_ n with
  | zero =>
    obtain rfl : n = 0 := by omega
    exact ⟨Bytes.copyIn_zero.symm, rfl⟩
  | succ fuel ih =>
    by_cases hzero : n = 0
    · subst hzero
      exact ⟨Bytes.copyIn_zero.symm, rfl⟩
    cases k with
    | nil =>
      have hstop : isEoc cur := h
      rw [writeLoop, if_neg fun hgo => hgo.2.2 hstop]
      simp
    | cons c ys =>
      have hnodup := h.nodup hsound
      obtain ⟨rfl, hc, hys⟩ := h
      have hgo : 0 < n ∧ 2 ≤ cur ∧ ¬ isEoc cur := ⟨by omega, hc.1, hsound.not_isEoc hc⟩
      have hnotMem : cur ∉ ys := (List.nodup_cons.mp hnodup).1
      simp only [List.length_cons, Nat.add_mul]
      rw [writeLoop, if_pos hgo]
      simp only
      generalize ht : min n (v.geo.clusterSize - off) = t
      have ho := onlyCluster_putCluster hsound hc ((clusterBuf v cur).copyIn off t src from_)
      have hdata : ∀ p < v.geo.clusterSize,
          (v.putCluster cur ((clusterBuf v cur).copyIn off t src from_)).data cur p =
            (v.data cur).copyIn off t src from_ p := by
        intro p hp
        rw [data_putCluster hc, Function.update_self, if_pos hp, Bytes.copyIn, Bytes.copyIn,
          clusterBuf_eq hc hp]
      generalize v.putCluster cur ((clusterBuf v cur).copyIn off t src from_) = w at ho hdata ⊢
      have hread : fatRead w cur = v.fat cur := by
        rw [Fat32.fatRead_eq (by rw [ho.geo]; exact hc.2), ho.fat]
      have hysw : w.Chain (v.fat cur) ys := Volume.Chain.onlyCluster hys ho
      have hwsound : w.geo.Sound := ho.geo ▸ hsound
      -- What the rest of the loop copies to the clusters behind this one.
      obtain ⟨m, hm⟩ : ∃ m, m = min (n - t) (ys.length * v.geo.clusterSize) := ⟨_, rfl⟩
      have hih : chainBytes (writeLoop src fuel w (v.fat cur) 0 (from_ + t) (n - t)).1 ys =
            (chainBytes w ys).copyIn 0 m src (from_ + t) ∧
          (writeLoop src fuel w (v.fat cur) 0 (from_ + t) (n - t)).2 = m := by
        rw [hm, ← ho.geo]
        exact ih hysw hwsound (from_ + t) (by rw [ho.geo]; omega) (by omega)
      obtain ⟨hbytes, hcount⟩ := hih
      have hloop := hysw.writeLoop_only hwsound src fuel 0 (from_ + t) (n - t)
      rw [hread]
      generalize writeLoop src fuel w (v.fat cur) 0 (from_ + t) (n - t) = r
        at hbytes hcount hloop ⊢
      have hrgeo : r.1.geo = v.geo := hloop.geo.trans ho.geo
      refine ⟨?_, by simp only [hcount]; omega⟩
      funext p
      by_cases hp : p < v.geo.clusterSize
      · rw [chainBytes_first (by rw [hrgeo]; exact hp), hloop.data cur hnotMem, hdata p hp,
          Bytes.copyIn, Bytes.copyIn, chainBytes_first hp]
        exact if_congr (by omega) rfl rfl
      · obtain ⟨q, rfl⟩ : ∃ q, p = v.geo.clusterSize + q := ⟨p - v.geo.clusterSize, by omega⟩
        have hys' : chainBytes w ys = chainBytes v ys :=
          chainBytes_congr ho.geo fun c hc => ho.data c fun heq => hnotMem (heq ▸ hc)
        have hleft : chainBytes r.1 (cur :: ys) (v.geo.clusterSize + q) = chainBytes r.1 ys q := by
          rw [← hrgeo]
          exact chainBytes_rest (hrgeo ▸ hsound) cur ys q
        rw [hleft, hbytes, hys', Bytes.copyIn, Bytes.copyIn, chainBytes_rest hsound]
        by_cases hin : q < m
        · rw [if_pos (by omega), if_pos (by omega)]
          congr 1
          omega
        · rw [if_neg (by omega), if_neg (by omega)]

/-- The rest of a chain from a position on. -/
theorem Volume.Chain.dropAt (h : v.Chain c k) {i : ℕ} (hi : i < k.length) :
    v.Chain k[i] (k.drop i) := by
  have hsplit := List.take_append_drop i k
  rw [List.drop_eq_getElem_cons hi] at hsplit ⊢
  exact IsChain.drop h hsplit.symm

/-- The position of an offset in the chain. -/
theorem div_clusterSize_lt (hn : off + n ≤ k.length * v.geo.clusterSize) (hpos : 0 < n) :
    off / v.geo.clusterSize < k.length := by
  refine Nat.div_lt_of_lt_mul ?_
  rw [Nat.mul_comm]
  omega

/-- The rest of the chain from the cluster of an offset on. -/
theorem length_dropAt (k : List ℕ) (off : ℕ) :
    (k.drop (off / v.geo.clusterSize)).length * v.geo.clusterSize - off % v.geo.clusterSize =
      k.length * v.geo.clusterSize - off := by
  have hdivmod := Nat.div_add_mod off v.geo.clusterSize
  rw [List.length_drop, Nat.sub_mul, Nat.mul_comm (off / v.geo.clusterSize)]
  omega

/-- The read loop from an offset on. -/
theorem Volume.Chain.readAt_eq (h : v.Chain c k) (hsound : v.geo.Sound)
    (hi : off / v.geo.clusterSize < k.length) :
    readLoop v n k[off / v.geo.clusterSize] (off % v.geo.clusterSize) n =
      (chainBytes v k).slice off (min n (k.length * v.geo.clusterSize - off)) := by
  have hmod := Nat.mod_lt off hsound.clusterSize_pos
  have hdivmod := Nat.div_add_mod off v.geo.clusterSize
  rw [(h.dropAt hi).readLoop_eq hsound hmod le_rfl, length_dropAt]
  refine Bytes.slice_congr fun i hi => ?_
  rw [chainBytes_drop hsound, Nat.mul_comm (off / v.geo.clusterSize), ← Nat.add_assoc, hdivmod]

/-- A read through a vnode with a chain copies bytes of the chain, up to its end. -/
theorem Volume.Chain.vopReadAt_eq (h : v.Chain vp.startCluster k) (hk : k ≠ [])
    (hsound : v.geo.Sound) (hframes : frames ≠ 0) (hoff : off < 2 ^ 32)
    (hm : m = min (readCount vp.fileSize n off) (k.length * v.geo.clusterSize - off)) :
    vopReadAt frames v vp n off = (asInt m, (chainBytes v k).slice off m) := by
  rw [vopReadAt]
  by_cases hzero : readCount vp.fileSize n off = 0
  · obtain rfl : m = 0 := by omega
    rw [if_pos hzero]
    rfl
  rw [if_neg hzero, Nat.mod_eq_of_lt ((Nat.div_le_self _ _).trans_lt hoff)]
  by_cases hdiv : off / v.geo.clusterSize < k.length
  · simp only [h.skipLinks_eq hsound hdiv, if_neg hframes]
    rw [h.readAt_eq hsound hdiv, ← hm, Bytes.slice_length]
  · -- The offset is behind the last cluster.
    have hbehind : k.length * v.geo.clusterSize ≤ off :=
      (Nat.mul_le_mul_right _ (not_lt.mp hdiv)).trans (Nat.div_mul_le_self _ _)
    obtain rfl : m = 0 := by omega
    rw [h.skipLinks_none hk (not_lt.mp hdiv)]
    rfl

/-- The write loop from an offset on. -/
theorem Volume.Chain.writeAt_eq (h : v.Chain c k) (hsound : v.geo.Sound) (src : Bytes)
    (hi : off / v.geo.clusterSize < k.length)
    (hm : m = min n (k.length * v.geo.clusterSize - off)) :
    ∃ w, writeLoop src n v k[off / v.geo.clusterSize] (off % v.geo.clusterSize) 0 n = (w, m) ∧
      OnlyClusters v w k ∧ chainBytes w k = (chainBytes v k).copyIn off m src 0 := by
  have hmod := Nat.mod_lt off hsound.clusterSize_pos
  have hdivmod := Nat.div_add_mod off v.geo.clusterSize
  have hdrop := h.dropAt hi
  obtain ⟨hbytes, hcount⟩ := hdrop.writeLoop_eq hsound src 0 hmod le_rfl (n := n)
  rw [length_dropAt, ← hm] at hbytes hcount
  have honly := hdrop.writeLoop_only hsound src n (off % v.geo.clusterSize) 0 n
  generalize writeLoop src n v k[off / v.geo.clusterSize] (off % v.geo.clusterSize) 0 n = r
    at hbytes hcount honly ⊢
  obtain ⟨w, count⟩ := r
  obtain rfl : count = m := hcount
  refine ⟨w, rfl, ⟨honly.fat, fun y hy => honly.data y fun hmem => hy (List.mem_of_mem_drop hmem),
    honly.geo, honly.nextFree⟩, ?_⟩
  funext p
  by_cases hp : p < off / v.geo.clusterSize * v.geo.clusterSize
  · -- The clusters in front of the first one that is written.
    have hlow : p < off := by
      have := Nat.div_mul_le_self off v.geo.clusterSize
      omega
    rw [Bytes.copyIn_of_lt hlow]
    have hpi : p / v.geo.clusterSize < off / v.geo.clusterSize :=
      Nat.div_lt_of_lt_mul (by rwa [Nat.mul_comm] at hp)
    unfold chainBytes
    rw [honly.geo, List.getElem?_eq_getElem (by omega)]
    change w.data _ _ = v.data _ _
    rw [honly.data _ fun hmem => ?_]
    obtain ⟨j, hj, heq⟩ := List.mem_iff_getElem.mp hmem
    rw [List.getElem_drop] at heq
    have hindex := (List.Nodup.getElem_inj_iff (h.nodup hsound)).mp heq
    omega
  · obtain ⟨q, rfl⟩ : ∃ q, p = off / v.geo.clusterSize * v.geo.clusterSize + q :=
      ⟨p - off / v.geo.clusterSize * v.geo.clusterSize, by omega⟩
    have hleft := chainBytes_drop (honly.geo ▸ hsound) k (off / v.geo.clusterSize) q
    rw [honly.geo] at hleft
    rw [← hleft, hbytes, Bytes.copyIn, Bytes.copyIn, chainBytes_drop hsound]
    rw [Nat.mul_comm (off / v.geo.clusterSize)]
    refine if_congr (by omega) ?_ rfl
    congr 1
    omega

/-! ## Free clusters -/

/-- The data clusters that are free. -/
def freeClusters (v : Volume) : Finset ℕ :=
  (Finset.Ico 2 (v.geo.totalDataClusters + 2)).filter fun c => v.fat c = 0

theorem mem_freeClusters : c ∈ freeClusters v ↔ v.geo.IsData c ∧ v.fat c = 0 := by
  rw [freeClusters, Finset.mem_filter, Finset.mem_Ico]
  rfl

/-- Allocation takes one of them. -/
theorem Allocated.card_freeClusters {x : ℕ} (h : Allocated v v' x) :
    (freeClusters v').card + 1 = (freeClusters v).card := by
  have hmem : x ∈ freeClusters v := mem_freeClusters.mpr ⟨h.isData, h.free⟩
  have herase : freeClusters v' = (freeClusters v).erase x := by
    ext c
    rw [mem_freeClusters, Finset.mem_erase, mem_freeClusters, h.geo, h.fat]
    by_cases heq : c = x
    · subst heq
      have hne : clusterEoc ≠ 0 := by decide
      simp [hne]
    · simp [heq]
  rw [herase, Finset.card_erase_of_mem hmem]
  have := Finset.card_pos.mpr ⟨x, hmem⟩
  omega

/-- The chain gets the clusters that are needed, or all that are free. -/
theorem Volume.Chain.growFile_cases (h : v.Chain c k) (hk : k ≠ []) (hsound : v.geo.Sound)
    (hhint : v.HintOk) (frames needed : ℕ) :
    ∃ v' r ext, growFile frames v c needed = some (v', r) ∧ GrownFile frames v v' c k ext ∧
      (needed ≤ k.length + (freeClusters v).card ∧ r = none ∧
          (k ++ ext).length = max needed k.length ∨
        k.length + (freeClusters v).card < needed ∧ r = some (k ++ ext).length ∧
          (k ++ ext).length = k.length + (freeClusters v).card) := by
  obtain ⟨v', r, ext, hgrow, hg, hcases⟩ := h.growFile_spec hk hsound hhint frames needed
  refine ⟨v', r, ext, hgrow, hg, ?_⟩
  have hfree : ∀ y ∈ ext, y ∈ freeClusters v := fun y hy =>
    mem_freeClusters.mpr ⟨hg.keeps.geo ▸ hg.chain.isData (by simp [hy]), hg.free y hy⟩
  have hnodup : ext.Nodup := (List.nodup_append.mp (hg.chain.nodup (hg.keeps.geo ▸ hsound))).2.1
  have hmost : ext.length ≤ (freeClusters v).card := by
    rw [← List.toFinset_card_of_nodup hnodup]
    exact Finset.card_le_card fun y hy => hfree y (List.mem_toFinset.mp hy)
  rw [List.length_append] at hcases ⊢
  rcases hcases with ⟨rfl, hle, hmax⟩ | ⟨rfl, hlt, hfull⟩
  · exact .inl ⟨by omega, rfl, by omega⟩
  · -- The clusters that were free are all used up by then.
    have hsub : freeClusters v ⊆ ext.toFinset := by
      intro y hy
      obtain ⟨hdata, hzero⟩ := mem_freeClusters.mp hy
      by_contra hnot
      exact hfull y hdata (hg.fat y hzero fun hmem => hnot (List.mem_toFinset.mpr hmem))
    have hcard := (Finset.card_le_card hsub).trans ext.toFinset_card_le
    exact .inr ⟨by omega, rfl, by omega⟩

theorem freeClusters_congr (hgeo : v'.geo = v.geo) (hfat : v'.fat = v.fat) :
    freeClusters v' = freeClusters v := by
  rw [freeClusters, freeClusters, hgeo, hfat]

/-! ## The first cluster -/

/-- The clusters of a file that starts at `c`: none, if `c` is no data cluster. -/
def Volume.FileClusters (v : Volume) (c : ℕ) (k : List ℕ) : Prop :=
  c < 2 ∧ k = [] ∨ v.Chain c k ∧ k ≠ []

instance (v : Volume) (c : ℕ) (k : List ℕ) : Decidable (v.FileClusters c k) := instDecidableOr

theorem Volume.FileClusters.chainLength_eq (h : v.FileClusters c k) (hsound : v.geo.Sound) :
    chainLength v c = k.length := by
  rcases h with ⟨hc, rfl⟩ | ⟨hk, -⟩
  · rw [chainLength, chainLengthLoop, if_neg (by omega)]
    rfl
  · exact hk.chainLength_eq hsound.entriesOk

/-- The file of `vp` with the clusters `k₀` has its first cluster, which was free if there was
none before. -/
structure Begun (frames : ℕ) (v u : Volume) (vp vp' : Vnode) (k₀ k : List ℕ) : Prop where
  chain : u.Chain vp'.startCluster k
  nonempty : k ≠ []
  vnode : vp' = { vp with startCluster := vp'.startCluster }
  keeps : Keeps v u []
  bytes : frames ≠ 0 → chainBytes u k = chainBytes v k₀
  length : k.length = max 1 k₀.length
  room : k.length + (freeClusters u).card = k₀.length + (freeClusters v).card
  start : u = v ∧ vp' = vp ∧ k = k₀ ∨
    k₀ = [] ∧ vp.startCluster < 2 ∧ ∃ x, k = [x] ∧ Allocated v (allocCluster v).1 x

variable {k₀ : List ℕ}

/-- The file gets its first cluster, or no cluster is free. -/
theorem Volume.FileClusters.firstCluster_cases (h : v.FileClusters vp.startCluster k₀)
    (hsound : v.geo.Sound) (hhint : v.HintOk) (frames : ℕ) :
    (firstCluster frames v vp = (v, none) ∧ k₀ = [] ∧ freeClusters v = ∅) ∨
      ∃ u vp' k, firstCluster frames v vp = (u, some vp') ∧ Begun frames v u vp vp' k₀ k := by
  rw [firstCluster]
  rcases h with ⟨hlt, rfl⟩ | ⟨hk, hne⟩
  · rw [if_neg (by omega)]
    rcases allocCluster_cases hsound hhint with ⟨heq, hfull⟩ | ⟨w, x, heq, hx0, ha⟩
    · refine .inl ⟨by simp only [heq, if_true], rfl, ?_⟩
      refine Finset.eq_empty_of_forall_notMem fun y hy => ?_
      obtain ⟨hdata, hfree⟩ := mem_freeClusters.mp hy
      exact hfull y hdata hfree
    · right
      have hdata : w.geo.IsData x := ha.geo ▸ ha.isData
      have ho := onlyCluster_zeroFresh (ha.geo ▸ hsound) hdata frames
      simp only [heq, if_neg hx0]
      refine ⟨_, { vp with startCluster := x }, [x], rfl, ha.chain.onlyCluster ho, by simp, rfl, ?_,
        fun hframes => ?_, rfl, ?_,
        .inr ⟨rfl, hlt, x, rfl, by rwa [heq]⟩⟩
      · refine ha.keeps.trans (ho.keeps ha.hint) fun z hz => ?_
        rw [List.mem_singleton.mp hz]
        exact .inr ha.free
      · refine chainBytes_zeros (k := []) fun y hy => ?_
        rw [List.mem_singleton.mp hy]
        exact data_zeroFresh hdata hframes
      · have hcard := ha.card_freeClusters
        rw [freeClusters_congr ho.geo ho.fat, List.length_singleton, List.length_nil]
        omega
  · have htwo := (hk.isData_start hne).1
    have hlength : 1 ≤ k₀.length := List.length_pos_iff.mpr hne
    rw [if_pos htwo]
    exact .inr ⟨v, vp, k₀, rfl, hk, hne, rfl, .refl hhint [], fun _ => rfl, by omega, rfl,
      .inl ⟨rfl, rfl, rfl⟩⟩

/-! ## How a write begins -/

/-- The clusters that a file needs for a write, with the overflows of the source. -/
def clustersNeeded (clusterSize offset nbyte : ℕ) : ℕ :=
  ((offset + nbyte) % 2 ^ 64 + clusterSize - 1) % 2 ^ 64 / clusterSize % 2 ^ 32

/-- The clusters that a file with the clusters `k` can have at most. -/
def fileRoom (v : Volume) (k : List ℕ) : ℕ := k.length + (freeClusters v).card

/-- The number of clusters is the quotient rounded up, if it has 32 bits. -/
theorem clustersNeeded_eq {cs : ℕ} (hpos : 0 < cs) (hpage : cs ≤ 4096)
    (h : off + n ≤ 2 ^ 31 * cs) :
    clustersNeeded cs off n = (off + n + cs - 1) / cs := by
  have hlt : (off + n + cs - 1) / cs < 2 ^ 32 := Nat.div_lt_of_lt_mul (by omega)
  rw [clustersNeeded, Nat.mod_eq_of_lt (a := off + n) (by omega),
    Nat.mod_eq_of_lt (a := off + n + cs - 1) (by omega), Nat.mod_eq_of_lt hlt]

theorem clustersNeeded_bounds {cs : ℕ} (hpos : 0 < cs) (hpage : cs ≤ 4096)
    (h : off + n ≤ 2 ^ 31 * cs) :
    off + n ≤ clustersNeeded cs off n * cs ∧ clustersNeeded cs off n * cs < off + n + cs := by
  have hdivmod := Nat.div_add_mod (off + n + cs - 1) cs
  have hmod := Nat.mod_lt (off + n + cs - 1) hpos
  rw [clustersNeeded_eq hpos hpage h, Nat.mul_comm]
  omega

/-- What a write comes to that finds clusters `k₀` in the file: there is no first cluster for it, or
no cluster of the offset, or bytes are copied, as many as there are clusters for. -/
inductive Writing (frames : ℕ) (v : Volume) (vp : Vnode) (src : Bytes) (k₀ : List ℕ) (n off : ℕ) :
    Option (Volume × Vnode × ℤ) → Prop
  | noCluster (hk : k₀ = []) (hfree : freeClusters v = ∅) :
      Writing frames v vp src k₀ n off (some (v, vp, -1))
  | noRoom {u w : Volume} {vp₁ : Vnode} {k ext : List ℕ} (hb : Begun frames v u vp vp₁ k₀ k)
      (hg : GrownFile frames u w vp₁.startCluster k ext)
      (hlt : fileRoom v k₀ < clustersNeeded v.geo.clusterSize off n)
      (hfull : fileRoom v k₀ * v.geo.clusterSize ≤ off) :
      Writing frames v vp src k₀ n off (some (w, vp₁, -1))
  | copies {u w : Volume} {vp₁ : Vnode} {k ext : List ℕ} {m endOffset : ℕ}
      (hb : Begun frames v u vp vp₁ k₀ k) (hg : GrownFile frames u w vp₁.startCluster k ext)
      (hcase : clustersNeeded v.geo.clusterSize off n ≤ fileRoom v k₀ ∧
          (k ++ ext).length = max (clustersNeeded v.geo.clusterSize off n) k.length ∧
          m = n ∧ endOffset = (off + n) % 2 ^ 64 ∨
        fileRoom v k₀ < clustersNeeded v.geo.clusterSize off n ∧
          (k ++ ext).length = fileRoom v k₀ ∧ ¬ fileRoom v k₀ * v.geo.clusterSize ≤ off ∧
          m = fileRoom v k₀ * v.geo.clusterSize - off ∧
          endOffset = fileRoom v k₀ * v.geo.clusterSize) :
      Writing frames v vp src k₀ n off (some (writeBytes frames w vp₁ src m off endOffset))

theorem Volume.FileClusters.vopWriteAt_cases (h : v.FileClusters vp.startCluster k₀)
    (hsound : v.geo.Sound) (hhint : v.HintOk) (hfile : vp.isDir = false) (hn : n ≠ 0)
    (src : Bytes) (frames off : ℕ) :
    Writing frames v vp src k₀ n off (vopWriteAt frames v vp src n off) := by
  rw [vopWriteAt, if_neg (by simp [hfile]), if_neg hn]
  rcases h.firstCluster_cases hsound hhint frames with ⟨hnone, hk, hfree⟩ | ⟨u, vp₁, k, hfirst, hb⟩
  · rw [hnone]
    exact .noCluster hk hfree
  obtain ⟨w, q, ext, hgrow, hg, hcases⟩ := hb.chain.growFile_cases hb.nonempty
    (hb.keeps.geo ▸ hsound) hb.keeps.hint frames (clustersNeeded v.geo.clusterSize off n)
  have hwgeo : w.geo = v.geo := hg.keeps.geo.trans hb.keeps.geo
  rw [clustersNeeded] at hgrow
  rw [hb.room] at hcases
  rw [hfirst]
  simp only [hb.keeps.geo, hgrow]
  rcases hcases with ⟨hle, rfl, hmax⟩ | ⟨hlt, rfl, hall⟩
  · exact .copies hb hg (.inl ⟨hle, hmax, rfl, rfl⟩)
  · simp only [hwgeo, hall]
    split_ifs with hfull
    · exact .noRoom hb hg hlt hfull
    · exact .copies hb hg (.inr ⟨hlt, hall, hfull, rfl, rfl⟩)

end Tomahawk.Fat32
