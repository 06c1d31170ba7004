import Tomahawk.Fat32.Listing

/-!
# Changing the entries of a directory

How the list of entries changes when a free slot is filled, an entry is deleted or its start
cluster is set, and how `fat32_find_free_dirent` makes room. What the iterator reports for the
slots behind a short entry does not depend on that entry.
-/

namespace Tomahawk.Fat32

open Function Tomahawk.Lib

/-- The slot holds an entry that is reported. -/
structure LiveSlot (de : Bytes) : Prop where
  notEnd : de 0 ≠ 0
  notFree : de 0 ≠ direntFree
  notLfn : isLfn de = false
  notLabel : isVolumeId de = false

/-- The long name after a slot. -/
def Lfn.after (lfn : Lfn) (de : Bytes) : Lfn :=
  if de 0 = direntFree then lfn.off else if isLfn de then lfn.add de else lfn.off

variable {lfn : Lfn} {p : ℕ} {as bs slots : List Bytes} {de : Bytes} {e : Live} {x n : ℕ}

theorem reported_live (h : LiveSlot de) (lfn : Lfn) (p : ℕ) (bs : List Bytes) :
    reported lfn p (de :: bs) = ⟨p, lfn.name de, de⟩ :: reported lfn.off (p + 1) bs := by
  rw [reported, if_neg h.notEnd, if_neg h.notFree, h.notLfn, h.notLabel]
  rfl

theorem reported_end (h : de 0 = 0) (lfn : Lfn) (p : ℕ) (bs : List Bytes) :
    reported lfn p (de :: bs) = [] := by
  rw [reported, if_pos h]

theorem reported_deleted (h : de 0 = direntFree) (lfn : Lfn) (p : ℕ) (bs : List Bytes) :
    reported lfn p (de :: bs) = reported lfn.off (p + 1) bs := by
  rw [reported, if_neg (by rw [h]; decide), if_pos h]

/-- A slot with no end mark: its own entry, if it has one, and then those of the rest. -/
theorem reported_cons (h : de 0 ≠ 0) (lfn : Lfn) (p : ℕ) :
    ∃ es, (∀ rest, reported lfn p (de :: rest) = es ++ reported (lfn.after de) (p + 1) rest) ∧
      (es = [] ∨ LiveSlot de ∧ es = [⟨p, lfn.name de, de⟩]) := by
  by_cases hfree : de 0 = direntFree
  · refine ⟨[], fun rest => ?_, .inl rfl⟩
    rw [reported_deleted hfree, Lfn.after, if_pos hfree]
    rfl
  by_cases hlfn : isLfn de = true
  · refine ⟨[], fun rest => ?_, .inl rfl⟩
    rw [reported, if_neg h, if_neg hfree, if_pos hlfn, Lfn.after, if_neg hfree, if_pos hlfn]
    rfl
  have hafter : lfn.after de = lfn.off := by rw [Lfn.after, if_neg hfree, if_neg hlfn]
  by_cases hlabel : isVolumeId de = true
  · refine ⟨[], fun rest => ?_, .inl rfl⟩
    rw [reported, if_neg h, if_neg hfree, if_neg hlfn, if_pos hlabel, hafter]
    rfl
  · have hlive : LiveSlot de := ⟨h, hfree, by simpa using hlfn, by simpa using hlabel⟩
    refine ⟨[⟨p, lfn.name de, de⟩], fun rest => ?_, .inr ⟨hlive, rfl⟩⟩
    rw [reported_live hlive, hafter]
    rfl

/-- The entries of a first part without an end mark, and then those of the rest. -/
theorem reported_append (has : ∀ d ∈ as, d 0 ≠ 0) (lfn : Lfn) (p : ℕ) (bs : List Bytes) :
    reported lfn p (as ++ bs) =
      reported lfn p as ++ reported (as.foldl Lfn.after lfn) (p + as.length) bs := by
  induction as generalizing lfn p with
  | nil => rfl
  | cons d as ih =>
    obtain ⟨es, hes, -⟩ := reported_cons (has d (by simp)) lfn p
    have hpos : p + (d :: as).length = p + 1 + as.length := by
      simp only [List.length_cons]
      omega
    rw [List.cons_append, hes, hes, ih (fun d hd => has d (by simp [hd])), List.append_assoc,
      List.foldl_cons, hpos]

/-- Free slots report nothing. -/
theorem reported_of_free (h : ∀ d ∈ bs, isFreeSlot d = true) (lfn : Lfn) (p : ℕ) :
    reported lfn p bs = [] := by
  induction bs generalizing lfn p with
  | nil => rfl
  | cons d bs ih =>
    have hd : d 0 = 0 ∨ d 0 = direntFree := by simpa [isFreeSlot] using h d (by simp)
    rcases hd with hend | hfree
    · exact reported_end hend lfn p bs
    · rw [reported_deleted hfree]
      exact ih (fun d hd => h d (by simp [hd])) _ _

/-- An entry that is reported stands in a live slot behind slots without an end mark. -/
theorem mem_reported (h : e ∈ reported lfn p slots) :
    ∃ as bs, slots = as ++ e.de :: bs ∧ e.pos = p + as.length ∧ (∀ d ∈ as, d 0 ≠ 0) ∧
      LiveSlot e.de ∧ e.name = (as.foldl Lfn.after lfn).name e.de := by
  induction slots generalizing lfn p with
  | nil => simp [reported] at h
  | cons d slots ih =>
    by_cases hend : d 0 = 0
    · rw [reported_end hend] at h
      simp at h
    obtain ⟨es, hes, hown⟩ := reported_cons hend lfn p
    rw [hes slots, List.mem_append] at h
    rcases h with hmem | hmem
    · rcases hown with rfl | ⟨hlive, rfl⟩
      · simp at hmem
      · obtain rfl := List.mem_singleton.mp hmem
        exact ⟨[], slots, rfl, rfl, by simp, hlive, rfl⟩
    · obtain ⟨as, bs, rfl, hpos, has, hlive, hname⟩ := ih hmem
      refine ⟨d :: as, bs, rfl, ?_, ?_, hlive, hname⟩
      · rw [hpos, List.length_cons]
        omega
      · intro d' hd'
        rcases List.mem_cons.mp hd' with rfl | hd'
        · exact hend
        · exact has d' hd'

/-- Positions of entries are positions of slots. -/
theorem pos_of_mem_reported (h : e ∈ reported lfn p slots) :
    p ≤ e.pos ∧ e.pos < p + slots.length := by
  obtain ⟨as, bs, rfl, hpos, -⟩ := mem_reported h
  simp only [List.length_append, List.length_cons]
  omega

theorem modify_append_cons (as bs : List Bytes) (de : Bytes) (g : Bytes → Bytes) :
    (as ++ de :: bs).modify as.length g = as ++ g de :: bs := by
  induction as with
  | nil => rfl
  | cons d as ih => simp [ih]

/-- Behind an end mark there are only free slots. -/
def ZeroTail (slots : List Bytes) : Prop :=
  ∀ (i j : ℕ) (de d : Bytes), i < j → slots[i]? = some de → de 0 = 0 → slots[j]? = some d →
    isFreeSlot d = true

/-- A slot that changes and does not become an end mark keeps the tail, if it stays free or no
end mark is in front of it. -/
theorem ZeroTail.modify (h : ZeroTail slots) {g : Bytes → Bytes}
    (hg : ∀ d, slots[p]? = some d → g d 0 = 0 → d 0 = 0)
    (hfree : ∀ d, slots[p]? = some d → isFreeSlot d = true → isFreeSlot (g d) = true ∨
      ∀ i < p, ∀ de, slots[i]? = some de → de 0 ≠ 0) : ZeroTail (slots.modify p g) := by
  intro i j de d hij hi hend hj
  rw [List.getElem?_modify] at hi hj
  obtain ⟨de, hde, rfl⟩ := Option.map_eq_some_iff.mp hi
  obtain ⟨d, hd, rfl⟩ := Option.map_eq_some_iff.mp hj
  have hend : de 0 = 0 := by
    split_ifs at hend with hpi
    · exact hg de (hpi ▸ hde) hend
    · exact hend
  have hdfree := h i j de d hij hde hend hd
  by_cases hpj : p = j
  · subst hpj
    rw [if_pos rfl]
    rcases hfree d hd hdfree with hfree | hnoend
    · exact hfree
    · exact absurd hend (hnoend i hij de hde)
  · rw [if_neg hpj]
    exact hdfree

/-! ## Filling a free slot -/

/-- The first free slot, and the slots before it. -/
theorem findIdx?_isFreeSlot (h : slots.findIdx? isFreeSlot = some p) :
    ∃ as de bs, slots = as ++ de :: bs ∧ as.length = p ∧ isFreeSlot de = true ∧
      ∀ d ∈ as, isFreeSlot d = false := by
  obtain ⟨hp, hfree, hbefore⟩ := List.findIdx?_eq_some_iff_getElem.mp h
  refine ⟨slots.take p, slots[p], slots.drop (p + 1), ?_, ?_, hfree, ?_⟩
  · rw [← List.drop_eq_getElem_cons hp, List.take_append_drop]
  · rw [List.length_take]
    omega
  · intro d hd
    obtain ⟨i, hi, rfl⟩ := List.mem_take_iff_getElem.mp hd
    simpa using hbefore i (by omega)

theorem ne_zero_of_not_free (h : isFreeSlot de = false) : de 0 ≠ 0 := by
  intro hzero
  simp [isFreeSlot, hzero] at h

/-- A free slot reports nothing itself, also when it is the end mark. -/
theorem reported_free (htail : ZeroTail (as ++ de :: bs)) (hfree : isFreeSlot de = true)
    (lfn : Lfn) (p : ℕ) : reported lfn p (de :: bs) = reported lfn.off (p + 1) bs := by
  have hde : de 0 = 0 ∨ de 0 = direntFree := by simpa [isFreeSlot] using hfree
  rcases hde with hend | hdel
  · rw [reported_end hend, reported_of_free]
    intro d hd
    obtain ⟨j, hj, rfl⟩ := List.mem_iff_getElem.mp hd
    refine htail as.length (as.length + 1 + j) de _ (by omega) (by simp) hend ?_
    rw [List.getElem?_append_right (by omega), show as.length + 1 + j - as.length = j + 1 by omega,
      List.getElem?_cons_succ, List.getElem?_eq_getElem hj]
  · exact reported_deleted hdel _ _ _

/-- The entries after a new one was stored in the first free slot. -/
structure Filled (es es' : List Live) (p : ℕ) (e : Live) : Prop where
  split : ∃ es₁ es₂, es = es₁ ++ es₂ ∧ es' = es₁ ++ e :: es₂
  pos : e.pos = p
  fresh : ∀ e ∈ es, e.pos ≠ p

theorem Filled.mem_iff {es es' : List Live} {e' : Live} (h : Filled es es' p e) :
    e' ∈ es' ↔ e' ∈ es ∨ e' = e := by
  obtain ⟨es₁, es₂, rfl, rfl⟩ := h.split
  simp only [List.mem_append, List.mem_cons]
  tauto

/-- Storing a live entry in the first free slot. -/
theorem reported_fill (hfind : slots.findIdx? isFreeSlot = some p) (htail : ZeroTail slots)
    (hlive : LiveSlot de) :
    Filled (reported Lfn.start 0 slots) (reported Lfn.start 0 (slots.modify p fun _ => de)) p
      ⟨p, ((slots.take p).foldl Lfn.after Lfn.start).name de, de⟩ := by
  obtain ⟨as, d, bs, rfl, rfl, hfree, has⟩ := findIdx?_isFreeSlot hfind
  have has' : ∀ d ∈ as, d 0 ≠ 0 := fun d hd => ne_zero_of_not_free (has d hd)
  rw [modify_append_cons, List.take_left, reported_append has', reported_append has',
    reported_live hlive, Nat.zero_add, reported_free htail hfree]
  refine ⟨⟨_, _, rfl, rfl⟩, rfl, fun e he => ?_⟩
  rcases List.mem_append.mp he with hmem | hmem
  · have hpos := pos_of_mem_reported hmem
    omega
  · have hpos := pos_of_mem_reported hmem
    omega

/-- A new entry whose name begins with the mark of deleted entries is not reported. -/
theorem reported_fill_deleted (hfind : slots.findIdx? isFreeSlot = some p)
    (htail : ZeroTail slots) (hdel : de 0 = direntFree) :
    reported Lfn.start 0 (slots.modify p fun _ => de) = reported Lfn.start 0 slots := by
  obtain ⟨as, d, bs, rfl, rfl, hfree, has⟩ := findIdx?_isFreeSlot hfind
  have has' : ∀ d ∈ as, d 0 ≠ 0 := fun d hd => ne_zero_of_not_free (has d hd)
  rw [modify_append_cons, reported_append has', reported_append has', reported_deleted hdel,
    reported_free htail hfree]

theorem ZeroTail.fill (h : ZeroTail slots) (hfind : slots.findIdx? isFreeSlot = some p)
    (hde : de 0 ≠ 0) : ZeroTail (slots.modify p fun _ => de) := by
  obtain ⟨hp, -, hbefore⟩ := List.findIdx?_eq_some_iff_getElem.mp hfind
  refine h.modify (fun _ _ hzero => absurd hzero hde) fun d hd hfree => .inr fun i hi de' hde' => ?_
  obtain ⟨hlt, rfl⟩ := List.getElem?_eq_some_iff.mp hde'
  have hnot := hbefore i hi
  exact ne_zero_of_not_free (by simpa using hnot)

/-! ## Changing an entry -/

section

variable (h : e ∈ reported Lfn.start 0 slots)
include h

/-- The slot of an entry. -/
theorem getElem?_of_mem_reported : slots[e.pos]? = some e.de := by
  obtain ⟨as, bs, rfl, hpos, -⟩ := mem_reported h
  rw [hpos, Nat.zero_add]
  simp

/-- An entry between those in front of it and those behind it, also when its slot changes. -/
theorem reported_at :
    ∃ es₁ es₂ lfn bs, reported Lfn.start 0 slots = es₁ ++ e :: es₂ ∧
      (∀ e' ∈ es₁ ++ es₂, e'.pos ≠ e.pos) ∧ LiveSlot e.de ∧ e.name = lfn.name e.de ∧
      es₂ = reported lfn.off (e.pos + 1) bs ∧
      ∀ g, reported Lfn.start 0 (slots.modify e.pos g) =
        es₁ ++ reported lfn e.pos (g e.de :: bs) := by
  obtain ⟨as, bs, rfl, hpos, has, hlive, hname⟩ := mem_reported h
  rw [Nat.zero_add] at hpos
  refine ⟨reported Lfn.start 0 as, _, as.foldl Lfn.after Lfn.start, bs, ?_, fun e' he' => ?_,
    hlive, hname, rfl, fun g => ?_⟩
  · rw [reported_append has, reported_live hlive, ← hname, Nat.zero_add, ← hpos]
  · rcases List.mem_append.mp he' with hmem | hmem
    · have := pos_of_mem_reported hmem
      omega
    · have := pos_of_mem_reported hmem
      omega
  · rw [hpos, modify_append_cons, reported_append has, Nat.zero_add]

/-- Marking an entry as deleted removes it from the list. -/
theorem reported_delete :
    ∃ es₁ es₂, reported Lfn.start 0 slots = es₁ ++ e :: es₂ ∧
      reported Lfn.start 0 (slots.modify e.pos fun de => update de 0 direntFree) =
        es₁ ++ es₂ ∧ ∀ e' ∈ es₁ ++ es₂, e'.pos ≠ e.pos := by
  obtain ⟨es₁, es₂, lfn, bs, heq, hother, -, -, rfl, hmodify⟩ := reported_at h
  refine ⟨es₁, _, heq, ?_, hother⟩
  rw [hmodify, reported_deleted (update_self _ _ _)]

end

theorem ZeroTail.delete (h : ZeroTail slots) :
    ZeroTail (slots.modify p fun de => update de 0 direntFree) := by
  refine h.modify (fun d _ hzero => ?_) fun d _ _ => .inl ?_
  · cases hzero
  · rw [isFreeSlot, update_self]
    decide

section

variable (size cluster : ℕ) (de : Bytes)

/-- A change of the size and the start cluster leaves the name and the attributes. -/
theorem setFile_apply {k : ℕ} (hk : k < 20) : setFile size cluster de k = de k := by
  unfold setFile
  rw [Bytes.putLe_of_lt (by omega), Bytes.putLe_of_lt (by omega), Bytes.putLe_of_lt (by omega)]

theorem dirName_setFile : dirName (setFile size cluster de) = dirName de := by
  exact Bytes.slice_congr fun k hk => setFile_apply size cluster de (by omega)

theorem dirAttr_setFile : dirAttr (setFile size cluster de) = dirAttr de :=
  setFile_apply size cluster de (by omega)

theorem dirNtRes_setFile : dirNtRes (setFile size cluster de) = dirNtRes de :=
  setFile_apply size cluster de (by omega)

end

/-- The start cluster that was set, for numbers of 32 bits. -/
theorem direntCluster_setFile (size : ℕ) {cluster : ℕ} (hcluster : cluster < 2 ^ 32) (de : Bytes) :
    direntCluster (setFile size cluster de) = cluster := by
  unfold direntCluster setFile
  rw [Bytes.le_putLe_of_disjoint (by omega), Bytes.le_putLe, Bytes.le_putLe]
  omega

/-- The size that was set, for numbers of 32 bits. -/
theorem dirFileSize_setFile {size : ℕ} (hsize : size < 2 ^ 32) (cluster : ℕ) (de : Bytes) :
    dirFileSize (setFile size cluster de) = size := by
  unfold dirFileSize setFile
  rw [Bytes.le_putLe_of_disjoint (by omega), Bytes.le_putLe_of_disjoint (by omega), Bytes.le_putLe]
  omega

theorem LiveSlot.setFile (h : LiveSlot de) (size cluster : ℕ) :
    LiveSlot (setFile size cluster de) := by
  have hfirst : Fat32.setFile size cluster de 0 = de 0 := setFile_apply size cluster de (by omega)
  have hattr := dirAttr_setFile size cluster de
  refine ⟨by rw [hfirst]; exact h.notEnd, by rw [hfirst]; exact h.notFree, ?_, ?_⟩
  · exact h.notLfn
  · exact h.notLabel

/-- The entry with another size and start cluster. -/
def Live.setFile (size cluster : ℕ) (e : Live) : Live :=
  { e with de := Fat32.setFile size cluster e.de }

/-- Setting the size and the start cluster of an entry changes it in its place. -/
theorem reported_setFile (h : e ∈ reported Lfn.start 0 slots) (size cluster : ℕ) :
    ∃ es₁ es₂, reported Lfn.start 0 slots = es₁ ++ e :: es₂ ∧
      reported Lfn.start 0 (slots.modify e.pos (setFile size cluster)) =
        es₁ ++ e.setFile size cluster :: es₂ ∧ ∀ e' ∈ es₁ ++ es₂, e'.pos ≠ e.pos := by
  obtain ⟨es₁, es₂, lfn, bs, heq, hother, hlive, hname, rfl, hmodify⟩ := reported_at h
  have hname' : lfn.name (setFile size cluster e.de) = e.name := by
    rw [hname, Lfn.name, Lfn.name, dirName_setFile, dirNtRes_setFile]
  refine ⟨es₁, _, heq, ?_, hother⟩
  rw [hmodify, reported_live (hlive.setFile _ _), hname']
  rfl

/-- The tail depends on the first bytes of the slots only. -/
theorem ZeroTail.setFile (h : ZeroTail slots) (p size cluster : ℕ) :
    ZeroTail (slots.modify p (setFile size cluster)) := by
  have hfirst : ∀ d, Fat32.setFile size cluster d 0 = d 0 := fun d =>
    setFile_apply size cluster d (by omega)
  refine h.modify (fun d _ hzero => (hfirst d).symm.trans hzero) fun d _ hfree => .inl ?_
  rwa [isFreeSlot, hfirst]

/-- Setting the size and the start cluster in a free slot changes no entry. -/
theorem reported_setFile_free (h : slots[p]? = some de) (hfree : isFreeSlot de = true)
    (lfn : Lfn) (q size cluster : ℕ) :
    reported lfn q (slots.modify p (setFile size cluster)) = reported lfn q slots := by
  induction slots generalizing p lfn q with
  | nil => simp at h
  | cons d slots ih =>
    cases p with
    | zero =>
      obtain rfl : d = de := by simpa using h
      have hfirst : setFile size cluster d 0 = d 0 := setFile_apply size cluster d (by omega)
      have hd : d 0 = 0 ∨ d 0 = direntFree := by simpa [isFreeSlot] using hfree
      rw [List.modify_zero_cons]
      rcases hd with hend | hdel
      · rw [reported_end (hfirst.trans hend), reported_end hend]
      · rw [reported_deleted (hfirst.trans hdel), reported_deleted hdel]
    | succ p =>
      rw [List.modify_succ_cons]
      by_cases hend : d 0 = 0
      · rw [reported_end hend, reported_end hend]
      · obtain ⟨es, hes, -⟩ := reported_cons hend lfn q
        rw [hes, hes, ih (by simpa using h)]

/-! ## Making room -/

/-- The slots of a cluster of zeros. -/
def blankSlots (n : ℕ) : List Bytes := List.replicate n fun _ => 0

theorem clusterSlots_zero {v : Volume} (h : v.data x = fun _ => 0) :
    clusterSlots v x = blankSlots v.geo.perCluster := by
  have hslot : ∀ i, direntAt (v.data x) i = fun _ => 0 := by
    intro i
    funext k
    simp [direntAt, h]
  rw [clusterSlots, blankSlots, List.map_congr_left (g := fun _ => fun _ => 0) fun i _ => hslot i]
  simp

theorem mem_blankSlots {d : Bytes} (h : d ∈ blankSlots n) : isFreeSlot d = true := by
  rw [List.eq_of_mem_replicate h]
  rfl

section

variable (hfull : slots.findIdx? isFreeSlot = none)
include hfull

/-- Blank slots behind slots that are all in use report nothing. -/
theorem reported_blank :
    reported Lfn.start 0 (slots ++ blankSlots n) = reported Lfn.start 0 slots := by
  have hslots : ∀ d ∈ slots, d 0 ≠ 0 := fun d hd =>
    ne_zero_of_not_free (by simpa using List.findIdx?_eq_none_iff.mp hfull d hd)
  rw [reported_append hslots, reported_of_free fun d hd => mem_blankSlots hd, List.append_nil]

theorem zeroTail_blank : ZeroTail (slots ++ blankSlots n) := by
  intro i j de d hij hi hend hj
  have hi' : slots.length ≤ i := by
    by_contra hlt
    rw [List.getElem?_append_left (by omega)] at hi
    have hnot := List.findIdx?_eq_none_iff.mp hfull de (List.mem_of_getElem? hi)
    exact ne_zero_of_not_free (by simpa using hnot) hend
  rw [List.getElem?_append_right (by omega)] at hj
  exact mem_blankSlots (List.mem_of_getElem? hj)

theorem findIdx?_blank (hn : 0 < n) :
    (slots ++ blankSlots n).findIdx? isFreeSlot = some slots.length := by
  obtain ⟨m, rfl⟩ : ∃ m, n = m + 1 := ⟨n - 1, by omega⟩
  rw [List.findIdx?_append, hfull, blankSlots, List.replicate_succ, List.findIdx?_cons]
  simp [isFreeSlot]

end

/-- The slots in front of the first free one. -/
def inUse (slots : List Bytes) : List Bytes := slots.takeWhile fun de => !isFreeSlot de

theorem take_findIdx? (h : slots.findIdx? isFreeSlot = some p) : slots.take p = inUse slots := by
  obtain ⟨as, de, bs, rfl, rfl, hfree, has⟩ := findIdx?_isFreeSlot h
  rw [List.take_left, inUse, List.takeWhile_append_of_pos fun d hd => by simp [has d hd],
    List.takeWhile_cons_of_neg (by simp [hfree]), List.append_nil]

theorem inUse_of_full (h : slots.findIdx? isFreeSlot = none) : inUse slots = slots := by
  refine List.takeWhile_eq_self_iff.mpr fun d hd => ?_
  have hnot := List.findIdx?_eq_none_iff.mp h d hd
  simpa using hnot

/-- The directory at `c` has the free slot `p`, perhaps in a new cluster. -/
structure Room (v v' : Volume) (c : ℕ) (l l' : List ℕ) (p : ℕ) : Prop where
  keeps : Keeps v v' l
  chain : v'.Chain c l'
  old : ∀ x ∈ l, x ∈ l'
  new : ∀ x ∈ l', x ∈ l ∨ v.fat x = 0
  free : (dirSlots v' l').findIdx? isFreeSlot = some p
  before : (dirSlots v' l').take p = inUse (dirSlots v l)
  listing : listing v' l' = listing v l
  tail : ZeroTail (dirSlots v l) → ZeroTail (dirSlots v' l')
  bound : p ≤ l.length * v.geo.perCluster

variable {v : Volume} {c : ℕ} {l : List ℕ} {frames : ℕ}

theorem zeroCluster_eq (hx : v.geo.IsData x) :
    zeroCluster v x = v.putCluster x fun _ => 0 := by
  rw [zeroCluster, writeCluster_eq hx]

/-- The driver finds a slot that is free. -/
theorem Volume.Chain.findFreeDirent_free {p : ℕ} (h : v.Chain c l) (hsound : v.geo.Sound)
    (hhint : v.HintOk) (hframes : frames ≠ 0)
    (hfind : (dirSlots v l).findIdx? isFreeSlot = some p) :
    findFreeDirent frames v c = some (v, some (p * 32 % 2 ^ 32)) ∧ Room v v c l l p := by
  obtain ⟨hp, -⟩ := List.findIdx?_eq_some_iff_getElem.mp hfind
  rw [length_dirSlots] at hp
  refine ⟨?_, .refl hhint l, h, fun _ hx => hx, fun _ hx => .inl hx, hfind, take_findIdx? hfind,
    rfl, fun htail => htail, hp.le⟩
  rw [findFreeDirent, if_neg hframes, h.findFreeLoop_eq hsound (h.length_lt_walkSteps hsound) 0,
    hfind]
  simp

/-- The driver finds room, or the volume is full. -/
theorem Volume.Chain.findFreeDirent_cases (h : v.Chain c l) (hl : l ≠ []) (hsound : v.geo.Sound)
    (hhint : v.HintOk) (hframes : frames ≠ 0) :
    findFreeDirent frames v c = some (v, none) ∨
      ∃ v' l' p, findFreeDirent frames v c = some (v', some (p * 32 % 2 ^ 32)) ∧
        Room v v' c l l' p := by
  cases hfind : (dirSlots v l).findIdx? isFreeSlot with
  | some p =>
    obtain ⟨heq, hroom⟩ := h.findFreeDirent_free hsound hhint hframes hfind
    exact .inr ⟨v, l, p, heq, hroom⟩
  | none =>
    rw [findFreeDirent, if_neg hframes,
      h.findFreeLoop_eq hsound (h.length_lt_walkSteps hsound) 0, hfind]
    have hlast := h.isData (List.getLast_mem hl)
    simp only [h.lastCluster_eq hl hsound, Nat.zero_add]
    rcases extendChain_cases hsound hhint hlast with ⟨heq, -⟩ | ⟨w, y, heq, hne, he⟩
    · exact .inl (by simp only [heq, if_true])
    · right
      have hgeo : w.geo = v.geo := he.geo
      have hsound' : w.geo.Sound := hgeo ▸ hsound
      have hdata : w.geo.IsData y := hgeo ▸ he.isData
      have hnew : y ∉ l := fun hmem => h.fat_ne_zero hmem he.free
      have hzero := onlyCluster_putCluster hsound' hdata fun _ => 0
      have hblank : (w.putCluster y fun _ => 0).data y = fun _ => 0 := by
        rw [data_putCluster hdata, update_self]
        funext k
        split_ifs <;> rfl
      have hpos := hsound.perCluster_pos
      -- The slots of the old clusters, and behind them those of the blank one.
      have hslots : dirSlots (w.putCluster y fun _ => 0) (l ++ [y]) =
          dirSlots v l ++ blankSlots v.geo.perCluster := by
        have hold : dirSlots (w.putCluster y fun _ => 0) l = dirSlots v l := by
          refine dirSlots_congr hgeo fun c hc => ?_
          rw [hzero.data c fun heq => hnew (heq ▸ hc), he.data]
        rw [dirSlots_append, hold, dirSlots_singleton, clusterSlots_zero hblank, putCluster_geo,
          hgeo]
      simp only [heq, if_neg hne]
      refine ⟨w.putCluster y fun _ => 0, l ++ [y], l.length * v.geo.perCluster, ?_,
        he.keeps_chain hzero, (h.extended hl hsound he).onlyCluster hzero, fun x hx => by simp [hx],
        fun x hx => ?_, ?_, ?_, ?_, fun _ => ?_, le_rfl⟩
      · rw [zeroCluster_eq hdata, hsound.clusterSize_eq, Nat.mul_assoc]
      · rcases List.mem_append.mp hx with hmem | hmem
        · exact .inl hmem
        · rw [List.mem_singleton.mp hmem]
          exact .inr he.free
      · rw [hslots, findIdx?_blank hfind hpos, length_dirSlots]
      · rw [hslots, ← length_dirSlots, List.take_left, inUse_of_full hfind]
      · rw [listing, hslots, reported_blank hfind]
        rfl
      · rw [hslots]
        exact zeroTail_blank hfind

end Tomahawk.Fat32
