import Tomahawk.Fat32.Directory

/-!
# What a directory lists

The slots of a directory are those of the clusters of its chain, in order. `reported` is the list
of entries that the iterator reports for them, and every operation is described by what it does
to the list of slots: it sets one slot, or it appends blank ones.
-/

namespace Tomahawk.Fat32

open Function Tomahawk.Lib

/-- Call a function on the elements of a list until it says to stop. -/
def foldUntil {σ α : Type} (f : σ → α → σ × Bool) : σ → List α → σ
  | s, [] => s
  | s, a :: as => if (f s a).2 then (f s a).1 else foldUntil f (f s a).1 as

/-- An entry in a slot of a directory. -/
structure Live where
  pos : ℕ
  name : CStr
  de : Bytes

/-- The entry as the callback sees it. Offsets have 32 bits. -/
def Live.entry (e : Live) : Entry := ⟨e.name, e.de, e.pos * 32 % 2 ^ 32⟩

/-- The entries that the iterator reports for a list of slots, the first one at position `p`. -/
def reported : Lfn → ℕ → List Bytes → List Live
  | _, _, [] => []
  | lfn, p, de :: slots =>
    if de 0 = 0 then []
    else if de 0 = direntFree then reported lfn.off (p + 1) slots
    else if isLfn de then reported (lfn.add de) (p + 1) slots
    else if isVolumeId de then reported lfn.off (p + 1) slots
    else ⟨p, lfn.name de, de⟩ :: reported lfn.off (p + 1) slots

/-- The number of entries of a cluster. -/
def Geometry.perCluster (g : Geometry) : ℕ := g.clusterSize / 32

/-- The slots of a cluster. -/
def clusterSlots (v : Volume) (c : ℕ) : List Bytes :=
  (List.range v.geo.perCluster).map (direntAt (v.data c))

/-- The slots of a list of clusters. -/
def dirSlots (v : Volume) (l : List ℕ) : List Bytes := l.flatMap (clusterSlots v)

variable {v v' : Volume} {c p : ℕ} {l : List ℕ} {lfn : Lfn} {σ : Type} {i n frames p : ℕ}
  {name : CStr} {es : List Live} {e : Live} {patch : ℕ → Bytes → Bytes} {g : Bytes → Bytes}

theorem Geometry.Sound.clusterSize_eq {g : Geometry} (h : g.Sound) :
    g.clusterSize = g.perCluster * 32 := (Nat.div_mul_cancel h.slots).symm

theorem Geometry.Sound.perCluster_pos {g : Geometry} (h : g.Sound) : 0 < g.perCluster := by
  have hsize := h.clusterSize_eq
  have htwo := h.twoSlots
  omega

@[simp] theorem length_clusterSlots : (clusterSlots v c).length = v.geo.perCluster := by
  simp [clusterSlots]

@[simp] theorem length_dirSlots : (dirSlots v l).length = l.length * v.geo.perCluster := by
  induction l with
  | nil => simp [dirSlots]
  | cons c l ih =>
    rw [dirSlots] at ih ⊢
    rw [List.flatMap_cons, List.length_append, ih, length_clusterSlots, List.length_cons]
    ring

/-! ## The iterator reports the entries -/

/-- The entries of a buffer are those of the cluster that was read into it. -/
theorem direntAt_clusterBuf (hsound : v.geo.Sound) (hc : v.geo.IsData c) (hi : i < v.geo.perCluster)
    : direntAt (clusterBuf v c) i = direntAt (v.data c) i := by
  have hsize := hsound.clusterSize_eq
  funext k
  unfold direntAt
  split_ifs with hk
  · exact clusterBuf_eq hc (by omega)
  · rfl

/-- The slots of a cluster, from the buffer into which it was read. -/
theorem clusterSlots_eq (hsound : v.geo.Sound) (hc : v.geo.IsData c) :
    clusterSlots v c = (List.range' 0 v.geo.perCluster).map (direntAt (clusterBuf v c)) := by
  rw [clusterSlots, List.range_eq_range']
  refine List.map_congr_left fun i hi => (direntAt_clusterBuf hsound hc ?_).symm
  rw [List.mem_range'_1] at hi
  omega

/-- One cluster: what the scan does is what the fold does on the entries that are reported for
its slots and whatever slots follow. -/
theorem scanSlots_eq (f : σ → Entry → σ × Bool) (buf : Bytes) {base : ℕ} (hbase : base % 32 = 0)
    (n i : ℕ) (lfn : Lfn) (s : σ) (rest : List Bytes) :
    foldUntil f s ((reported lfn (base / 32 + i)
        ((List.range' i n).map (direntAt buf) ++ rest)).map Live.entry) =
      match scanSlots f buf base n i lfn s with
      | .inl s => s
      | .inr (lfn, s) =>
        foldUntil f s ((reported lfn (base / 32 + i + n) rest).map Live.entry) := by
  induction n generalizing i lfn s with
  | zero => rfl
  | succ n ih =>
    have hoffset : (base / 32 + i) * 32 = base + i * 32 := by omega
    have hpos : base / 32 + (i + 1) + n = base / 32 + i + (n + 1) := by omega
    simp only [← hpos, List.range'_succ, List.map_cons, List.cons_append, scanSlots, reported]
    split_ifs with hend hfree hlfn hlabel hstop
    · rfl
    · exact ih (i + 1) lfn.off s
    · exact ih (i + 1) (lfn.add _) s
    · exact ih (i + 1) lfn.off s
    · simp only [List.map_cons, foldUntil, Live.entry, hoffset, if_pos hstop]
    · simp only [List.map_cons, foldUntil, Live.entry, hoffset, if_neg hstop]
      exact ih (i + 1) lfn.off _

/-- The iterator calls the callback on the entries that are reported. -/
theorem Volume.Chain.iterateLoop_eq (h : v.Chain c l) (hsound : v.geo.Sound)
    (f : σ → Entry → σ × Bool) (hn : l.length < n) (idx : ℕ) (lfn : Lfn) (s : σ) :
    iterateLoop f v n c idx lfn s =
      some (foldUntil f s ((reported lfn (idx * v.geo.perCluster) (dirSlots v l)).map
        Live.entry)) := by
  induction l generalizing c n idx lfn s with
  | nil =>
    obtain ⟨n, rfl⟩ : ∃ m, n = m + 1 := ⟨n - 1, by simp at hn; omega⟩
    have hstop : isEoc c := h
    rw [iterateLoop, if_neg fun hgo => hgo.2 hstop]
    rfl
  | cons x xs ih =>
    have hread := h.fatRead_eq (x := x) (by simp)
    obtain ⟨rfl, hx, hxs⟩ := h
    simp only [List.length_cons] at hn
    obtain ⟨n, rfl⟩ : ∃ m, n = m + 1 := ⟨n - 1, by omega⟩
    have hsize := hsound.clusterSize_eq
    have hbase : idx * v.geo.clusterSize % 32 = 0 := by
      rw [hsize, ← Nat.mul_assoc, Nat.mul_mod_left]
    have hdiv : idx * v.geo.clusterSize / 32 = idx * v.geo.perCluster := by
      rw [hsize, ← Nat.mul_assoc, Nat.mul_div_cancel _ (by omega)]
    have hscan := scanSlots_eq f (clusterBuf v c) hbase v.geo.perCluster 0 lfn s (dirSlots v xs)
    rw [iterateLoop, if_pos ⟨hx.1, hsound.not_isEoc hx⟩, dirSlots, List.flatMap_cons,
      clusterSlots_eq hsound hx]
    rw [hdiv, Nat.add_zero] at hscan
    rw [dirSlots] at hscan
    rw [hscan]
    unfold Geometry.perCluster
    cases scanSlots f (clusterBuf v c) (idx * v.geo.clusterSize) (v.geo.clusterSize / 32) 0 lfn s with
    | inl s => rfl
    | inr r =>
      obtain ⟨lfn, s⟩ := r
      have hnext := ih hxs (n := n) (by omega) (idx + 1) lfn s
      rw [Nat.add_mul, Nat.one_mul] at hnext
      simp only [hread]
      exact hnext

/-- The entries that a directory lists. -/
def listing (v : Volume) (l : List ℕ) : List Live := reported Lfn.start 0 (dirSlots v l)

theorem Volume.Chain.iterateDir_eq (h : v.Chain c l) (hsound : v.geo.Sound) (hframes : frames ≠ 0)
    (f : σ → Entry → σ × Bool) (s : σ) :
    iterateDir frames v c f s = some (0, foldUntil f s ((listing v l).map Live.entry)) := by
  rw [iterateDir, if_neg hframes,
    h.iterateLoop_eq hsound f (h.length_lt_walkSteps hsound) 0 Lfn.start s, Nat.zero_mul]
  rfl

/-- The first entry with a name. -/
def findName (name : CStr) (es : List Live) : Option Live :=
  es.find? fun e => decide (SameName e.name name)

theorem foldUntil_nameCallback (name : CStr) (es : List Live) :
    foldUntil (nameCallback name) none (es.map Live.entry) = (findName name es).map Live.entry := by
  induction es with
  | nil => rfl
  | cons e es ih =>
    rw [findName] at ih
    have hcall : nameCallback name none e.entry =
        if SameName e.name name then (some e.entry, true) else (none, false) := by
      simp only [nameCallback, Live.entry, nameCmpCi_eq_zero]
    rw [List.map_cons, foldUntil, hcall, findName, List.find?_cons]
    by_cases hname : SameName e.name name
    · simp [hname]
    · simpa [hname] using ih

/-- Looking for a name gives the first entry that has it. -/
theorem Volume.Chain.iterateDir_name (h : v.Chain c l) (hsound : v.geo.Sound) (hframes : frames ≠ 0)
    (name : CStr) :
    iterateDir frames v c (nameCallback name) none =
      some (0, (findName name (listing v l)).map Live.entry) := by
  rw [h.iterateDir_eq hsound hframes, foldUntil_nameCallback]

theorem findName_eq_some (h : findName name es = some e) : e ∈ es ∧ SameName e.name name :=
  ⟨List.mem_of_find?_eq_some h, by simpa using List.find?_some h⟩

theorem findName_eq_none (h : findName name es = none) (he : e ∈ es) : ¬ SameName e.name name := by
  simpa using List.find?_eq_none.mp h e he

/-! ## Slots by position -/

/-- The slot at a position. -/
theorem getElem?_dirSlots (hsound : v.geo.Sound) (l : List ℕ) (p : ℕ) :
    (dirSlots v l)[p]? =
      l[p / v.geo.perCluster]?.map fun c => direntAt (v.data c) (p % v.geo.perCluster) := by
  have hpos := hsound.perCluster_pos
  induction l generalizing p with
  | nil => simp [dirSlots]
  | cons c l ih =>
    rw [dirSlots, List.flatMap_cons]
    by_cases hp : p < v.geo.perCluster
    · rw [List.getElem?_append_left (by simpa using hp), Nat.div_eq_of_lt hp, Nat.mod_eq_of_lt hp,
        clusterSlots, List.getElem?_map, List.getElem?_range hp]
      rfl
    · have hle := not_lt.mp hp
      rw [List.getElem?_append_right (by simpa using hp), length_clusterSlots,
        Nat.div_eq_sub_div hpos hle, Nat.mod_eq_sub_mod hle, List.getElem?_cons_succ]
      exact ih (p - v.geo.perCluster)

/-- Slots depend only on the data of their clusters. -/
theorem dirSlots_congr (hgeo : v'.geo = v.geo) (hdata : ∀ c ∈ l, v'.data c = v.data c) :
    dirSlots v' l = dirSlots v l := by
  refine List.flatMap_congr fun c hc => ?_
  rw [clusterSlots, clusterSlots, hdata c hc, hgeo]

theorem dirSlots_append (v : Volume) (l l' : List ℕ) :
    dirSlots v (l ++ l') = dirSlots v l ++ dirSlots v l' := List.flatMap_append

theorem dirSlots_singleton (v : Volume) (c : ℕ) : dirSlots v [c] = clusterSlots v c := by
  simp [dirSlots]

/-- A change of a buffer at an entry, and what it does to the entry. -/
structure SlotPatch (patch : ℕ → Bytes → Bytes) (g : Bytes → Bytes) : Prop where
  outside : ∀ off buf k, k < off ∨ off + 32 ≤ k → patch off buf k = buf k
  slot : ∀ i buf, direntAt (patch (i * 32) buf) i = g (direntAt buf i)

/-- Changing an entry in a cluster of a directory changes that slot. -/
theorem dirSlots_patch (hsound : v.geo.Sound) (hnodup : l.Nodup) (hdata : ∀ x ∈ l, v.geo.IsData x)
    (hpatch : SlotPatch patch g) (hc : l[p / v.geo.perCluster]? = some c) :
    dirSlots (v.putCluster c (patch (p % v.geo.perCluster * 32) (clusterBuf v c))) l =
      (dirSlots v l).modify p g := by
  have hpos := hsound.perCluster_pos
  have hsize := hsound.clusterSize_eq
  have hmem := hdata c (List.mem_of_getElem? hc)
  generalize hw : v.putCluster c (patch (p % v.geo.perCluster * 32) (clusterBuf v c)) = w
  have hgeo : w.geo = v.geo := by rw [← hw]; rfl
  -- The slots of the cluster that was written.
  have hslots : ∀ i < v.geo.perCluster, direntAt (w.data c) i =
      direntAt (patch (p % v.geo.perCluster * 32) (clusterBuf v c)) i := by
    intro i hi
    funext k
    unfold direntAt
    split_ifs with hk
    · rw [← hw, data_putCluster hmem, update_self, if_pos (by omega)]
    · rfl
  refine List.ext_getElem? fun q => ?_
  rw [List.getElem?_modify, getElem?_dirSlots (hgeo ▸ hsound), getElem?_dirSlots hsound, hgeo]
  have hq := Nat.mod_lt q hpos
  cases hget : l[q / v.geo.perCluster]? with
  | none => simp
  | some x =>
    simp only [Option.map_some, Option.map_eq_map]
    by_cases hx : x = c
    · subst hx
      have hdiv : q / v.geo.perCluster = p / v.geo.perCluster :=
        (List.getElem?_inj (List.getElem?_eq_some_iff.mp hget).1 hnodup).mp (hget.trans hc.symm)
      rw [hslots _ hq]
      by_cases hqp : p = q
      · subst hqp
        rw [if_pos rfl, hpatch.slot, direntAt_clusterBuf hsound hmem hq]
      · have hmod : q % v.geo.perCluster ≠ p % v.geo.perCluster := by
          intro hmod
          have hp := Nat.div_add_mod p v.geo.perCluster
          have hq' := Nat.div_add_mod q v.geo.perCluster
          rw [hdiv, hmod] at hq'
          omega
        rw [if_neg hqp, ← direntAt_clusterBuf hsound hmem hq]
        congr 1
        funext k
        unfold direntAt
        split_ifs with hk
        · exact hpatch.outside _ _ _ (by omega)
        · rfl
    · have hqp : p ≠ q := by
        rintro rfl
        rw [hc] at hget
        exact hx (Option.some.inj hget).symm
      rw [if_neg hqp, ← hw, data_putCluster hmem, update_of_ne hx]

section

variable (h : v.Chain c l) (hsound : v.geo.Sound) (hframes : frames ≠ 0)
include h hsound hframes

/-- Changing an entry at an offset of a directory writes the cluster of the entry. -/
theorem Volume.Chain.patchDirent_put (patch : ℕ → Bytes → Bytes)
    (hp : p / v.geo.perCluster < l.length) :
    patchDirent frames v c (p * 32) patch = some (v.putCluster l[p / v.geo.perCluster]
      (patch (p % v.geo.perCluster * 32) (clusterBuf v l[p / v.geo.perCluster]))) := by
  have hsize := hsound.clusterSize_eq
  have hdiv : p * 32 / v.geo.clusterSize = p / v.geo.perCluster := by
    rw [hsize, Nat.mul_div_mul_right _ _ (by omega)]
  have hmod : p * 32 % v.geo.clusterSize = p % v.geo.perCluster * 32 := by
    rw [hsize, Nat.mul_mod_mul_right]
  have hdata := h.isData (List.getElem_mem hp)
  rw [patchDirent, hdiv, h.skipLinks_eq hsound hp]
  simp only [if_neg hframes, readCluster_eq hdata, hmod, writeCluster_eq hdata]

/-- Changing an entry at an offset of a directory. -/
theorem Volume.Chain.patchDirent_eq (hpatch : SlotPatch patch g)
    (hp : p < l.length * v.geo.perCluster) :
    ∃ v' x, patchDirent frames v c (p * 32) patch = some v' ∧ x ∈ l ∧ OnlyCluster v v' x ∧
      dirSlots v' l = (dirSlots v l).modify p g := by
  have hlt : p / v.geo.perCluster < l.length := Nat.div_lt_of_lt_mul (by rw [Nat.mul_comm]; exact hp)
  have hmem : l[p / v.geo.perCluster] ∈ l := List.getElem_mem hlt
  exact ⟨_, l[p / v.geo.perCluster], h.patchDirent_put hsound hframes patch hlt, hmem,
    onlyCluster_putCluster hsound (h.isData hmem) _,
    dirSlots_patch hsound (h.nodup hsound) (fun x hx => h.isData hx) hpatch
      (List.getElem?_eq_getElem hlt)⟩

/-- The byte `i` of the cluster `x` is in the slot `p` of the directory. -/
def InSlot (v : Volume) (l : List ℕ) (p x i : ℕ) : Prop :=
  l[p / v.geo.perCluster]? = some x ∧ p % v.geo.perCluster * 32 ≤ i ∧
    i < p % v.geo.perCluster * 32 + 32

/-- Changing an entry changes no byte outside of its slot. -/
theorem Volume.Chain.data_patchDirent (hpatch : SlotPatch patch g) {x : ℕ}
    (hp : p < l.length * v.geo.perCluster) (hv' : patchDirent frames v c (p * 32) patch = some v')
    (hout : ¬ InSlot v l p x i) : v'.data x i = v.data x i := by
  have hlt : p / v.geo.perCluster < l.length := Nat.div_lt_of_lt_mul (by rw [Nat.mul_comm]; exact hp)
  have hdata := h.isData (List.getElem_mem hlt)
  rw [h.patchDirent_put hsound hframes patch hlt] at hv'
  cases hv'
  rw [data_putCluster hdata]
  by_cases hx : x = l[p / v.geo.perCluster]
  · subst hx
    rw [update_self]
    by_cases hi : i < v.geo.clusterSize
    · have hapart : i < p % v.geo.perCluster * 32 ∨ p % v.geo.perCluster * 32 + 32 ≤ i := by
        by_contra hin
        exact hout ⟨List.getElem?_eq_getElem hlt, by omega, by omega⟩
      rw [if_pos hi, hpatch.outside _ _ _ hapart, clusterBuf_eq hdata hi]
    · rw [if_neg hi, Volume.data, if_neg fun hin => hi hin.2]
  · rw [update_of_ne hx]

end

/-- Storing an entry replaces the slot. -/
theorem slotPatch_store (de : Bytes) : SlotPatch (storeDirent de) fun _ => direntAt de 0 := by
  refine ⟨fun off buf k hk => ?_, fun i buf => ?_⟩
  · rcases hk with hlt | hle
    · exact Bytes.copyIn_of_lt hlt
    · exact Bytes.copyIn_of_le hle
  · funext k
    unfold direntAt storeDirent
    split_ifs with hk
    · rw [Bytes.copyIn_of_mem (by omega) (by omega), Nat.add_sub_cancel_left, Nat.zero_mul]
    · rfl

/-- Marking an entry as deleted changes its first byte. -/
theorem slotPatch_free : SlotPatch (fun off buf => update buf off direntFree)
    fun de => update de 0 direntFree := by
  refine ⟨fun off buf k hk => update_of_ne (by omega) _ _, fun i buf => ?_⟩
  funext k
  unfold direntAt
  by_cases hk : k = 0
  · subst hk
    simp
  · rw [update_of_ne hk]
    split_ifs with hlt
    · rw [update_of_ne (by omega)]
    · rfl

/-- The entry with another size and start cluster. -/
def setFile (size cluster : ℕ) (de : Bytes) : Bytes :=
  ((de.putLe 28 4 size).putLe 20 2 (cluster / 2 ^ 16)).putLe 26 2 cluster

theorem slotPatch_setFile (size cluster : ℕ) :
    SlotPatch (fun off buf => ((buf.putLe (off + 28) 4 size).putLe (off + 20) 2
      (cluster / 2 ^ 16)).putLe (off + 26) 2 cluster) (setFile size cluster) := by
  refine ⟨fun off buf k hk => ?_, fun i buf => ?_⟩
  · simp only [Bytes.putLe]
    rw [if_neg (by omega), if_neg (by omega), if_neg (by omega)]
  · funext k
    unfold direntAt setFile
    by_cases hk : k < 32
    · simp only [Bytes.putLe, if_pos hk, Nat.add_le_add_iff_left, Nat.add_assoc,
        Nat.add_lt_add_iff_left, Nat.add_sub_add_left]
    · simp only [Bytes.putLe, if_neg hk]
      rw [if_neg (by omega), if_neg (by omega), if_neg (by omega)]

/-! ## Free slots -/

/-- The slot can be used for a new entry. -/
def isFreeSlot (de : Bytes) : Bool := de 0 == 0 || de 0 == direntFree

theorem freeSlot_eq (buf : Bytes) (n i : ℕ) :
    freeSlot buf n i =
      (((List.range' i n).map (direntAt buf)).findIdx? isFreeSlot).map (· + i) := by
  induction n generalizing i with
  | zero => rfl
  | succ n ih =>
    have hfirst : direntAt buf i 0 = buf (i * 32) := rfl
    rw [freeSlot, List.range'_succ, List.map_cons, List.findIdx?_cons]
    by_cases hfree : buf (i * 32) = 0 ∨ buf (i * 32) = direntFree
    · simp [isFreeSlot, hfirst, hfree]
    · rw [if_neg hfree, ih]
      have hnot : isFreeSlot (direntAt buf i) = false := by
        simpa [isFreeSlot, hfirst] using hfree
      rw [hnot, if_neg (by simp), Option.map_map]
      congr 1
      funext k
      simp only [comp_apply]
      omega

theorem Volume.Chain.findFreeLoop_eq (h : v.Chain c l) (hsound : v.geo.Sound) (hn : l.length < n)
    (idx : ℕ) :
    findFreeLoop v n c idx =
      some (match (dirSlots v l).findIdx? isFreeSlot with
        | some p => .inl ((idx * v.geo.perCluster + p) * 32 % 2 ^ 32)
        | none => .inr (idx + l.length)) := by
  induction l generalizing c n idx with
  | nil =>
    obtain ⟨n, rfl⟩ : ∃ m, n = m + 1 := ⟨n - 1, by simp at hn; omega⟩
    have hstop : isEoc c := h
    rw [findFreeLoop, if_neg fun hgo => hgo.2 hstop]
    rfl
  | cons x xs ih =>
    have hread := h.fatRead_eq (x := x) (by simp)
    obtain ⟨rfl, hx, hxs⟩ := h
    simp only [List.length_cons] at hn ⊢
    obtain ⟨n, rfl⟩ : ∃ m, n = m + 1 := ⟨n - 1, by omega⟩
    have hsize := hsound.clusterSize_eq
    have hscan : freeSlot (clusterBuf v c) (v.geo.clusterSize / 32) 0 =
        (clusterSlots v c).findIdx? isFreeSlot := by
      rw [freeSlot_eq, clusterSlots_eq hsound hx]
      simp [Geometry.perCluster]
    rw [findFreeLoop, if_pos ⟨hx.1, hsound.not_isEoc hx⟩, hscan, dirSlots, List.flatMap_cons,
      List.findIdx?_append, length_clusterSlots]
    cases hfind : (clusterSlots v c).findIdx? isFreeSlot with
    | some i =>
      simp only [Option.some_or]
      rw [hsize]
      congr 3
      ring
    | none =>
      have hnext := ih hxs (n := n) (by omega) (idx + 1)
      simp only [hread, hnext, Option.none_or]
      rw [dirSlots]
      cases (xs.flatMap (clusterSlots v)).findIdx? isFreeSlot with
      | none =>
        simp only [Option.map_none]
        congr 2
        omega
      | some p =>
        simp only [Option.map_some]
        congr 4
        ring

end Tomahawk.Fat32
