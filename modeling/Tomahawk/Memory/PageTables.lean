import Tomahawk.Memory.Paging
import Tomahawk.Lib.CopyOnWrite

/-!
# The trees of page tables

Where the tables and the user pages of an address space are, by the path of indices that
leads to them, and how the writes of the clone and of the fault handler change that.
-/

namespace Tomahawk.Memory

open Function Tomahawk.Lib

/-! ## Entries -/

theorem frame_markCow (e : Word) : (markCow e).frame = e.frame := by
  unfold Word.frame markCow
  rw [BitVec.and_or_distrib_right, BitVec.and_assoc]
  have hrw : ~~~pteRw &&& pteAddrMask = pteAddrMask := by decide
  have hcow : pteCow &&& pteAddrMask = 0#64 := by decide
  rw [hrw, hcow, BitVec.or_zero]

theorem frame_clearCow (e : Word) : (clearCow e).frame = e.frame := by
  unfold Word.frame clearCow
  rw [BitVec.and_assoc, BitVec.and_or_distrib_right]
  have hcow : ~~~pteCow &&& pteAddrMask = pteAddrMask := by decide
  have hrw : pteRw &&& pteAddrMask = 0#64 := by decide
  rw [hcow, hrw, BitVec.or_zero]

/-- Frames below 2^40 fit in an entry. -/
theorem frame_withFrame {f : ℕ} (hf : f < 2 ^ 40) (e : Word) : (withFrame f e).frame = f := by
  unfold Word.frame withFrame
  have hflags : e &&& ~~~pteAddrMask &&& pteAddrMask = 0#64 := by
    ext i hi
    simp
  rw [BitVec.and_or_distrib_right, hflags, BitVec.or_zero, BitVec.and_assoc, BitVec.and_self,
    BitVec.toNat_and, BitVec.toNat_ofNat, Nat.mod_eq_of_lt (by omega)]
  have hmask : pteAddrMask.toNat = (2 ^ 40 - 1) * 2 ^ 12 := by decide
  rw [hmask, show f * 4096 = f * 2 ^ 12 from rfl, ← Nat.shiftLeft_eq, ← Nat.shiftLeft_eq,
    ← Nat.shiftLeft_and_distrib, Nat.and_two_pow_sub_one_eq_mod, Nat.mod_eq_of_lt hf,
    Nat.shiftLeft_eq]
  exact Nat.mul_div_cancel _ (by decide)

section

variable (f : ℕ) (e : Word)

theorem getLsbD_withFrame {k : ℕ} (hk : k < 12) : (withFrame f e).getLsbD k = e.getLsbD k := by
  have hmask : ∀ k < 12, pteAddrMask.getLsbD k = false := by decide
  rw [withFrame, BitVec.getLsbD_or, BitVec.getLsbD_and, BitVec.getLsbD_and, BitVec.getLsbD_not,
    hmask k hk]
  simp only [Bool.and_false, Bool.not_false, Bool.and_true, Bool.false_or,
    show k < 64 by omega, decide_true]

@[simp]
theorem rw_markCow : (markCow e).rw = false := by
  simp [markCow, Word.rw, pteRw, pteCow]

@[simp]
theorem present_markCow : (markCow e).present = e.present := by
  simp [markCow, Word.present, pteRw, pteCow]

@[simp]
theorem user_markCow : (markCow e).user = e.user := by
  simp [markCow, Word.user, pteRw, pteCow]

@[simp]
theorem ps_markCow : (markCow e).ps = e.ps := by
  simp [markCow, Word.ps, pteRw, pteCow]

theorem markCow_markCow : markCow (markCow e) = markCow e := by
  have hcow : pteCow &&& ~~~pteRw = pteCow := by decide
  simp only [markCow, BitVec.and_or_distrib_right, BitVec.and_assoc, BitVec.and_self, hcow,
    BitVec.or_assoc, BitVec.or_self]

@[simp]
theorem rw_clearCow : (clearCow e).rw = true := by
  simp [clearCow, Word.rw, pteRw, pteCow]

@[simp]
theorem present_clearCow : (clearCow e).present = e.present := by
  simp [clearCow, Word.present, pteRw, pteCow]

@[simp]
theorem user_clearCow : (clearCow e).user = e.user := by
  simp [clearCow, Word.user, pteRw, pteCow]

@[simp]
theorem present_withFrame : (withFrame f e).present = e.present :=
  getLsbD_withFrame f e (by decide)

@[simp]
theorem rw_withFrame : (withFrame f e).rw = e.rw :=
  getLsbD_withFrame f e (by decide)

@[simp]
theorem user_withFrame : (withFrame f e).user = e.user :=
  getLsbD_withFrame f e (by decide)

@[simp]
theorem ps_withFrame : (withFrame f e).ps = e.ps :=
  getLsbD_withFrame f e (by decide)

end

/-! ## Paths -/

/-- The indices that lead to a table or an entry, the innermost first. -/
abbrev Path := List (Fin 512)

/-- The path is in the half of the address space that user code has. -/
def Lower (p : Path) : Prop := ∀ i ∈ p.getLast?, i.val < 256

/-- The table at a path below a root. -/
def tableAt (s : Machine) (root : ℕ) : Path → Option ℕ
  | [] => some root
  | i :: p => (tableAt s root p).bind fun t =>
    if (s.mem t i).present then some (s.mem t i).frame else none

/-- The entry at a path below a root. -/
def entryAt (s : Machine) (root : ℕ) : Path → Option Word
  | [] => none
  | i :: p => (tableAt s root p).map fun t => s.mem t i

variable {s s' : Machine} {r r' t t' : ℕ} {p q : Path} {i j : Fin 512} {e : Word}

theorem lower_nil : Lower [] := by simp [Lower]

theorem Lower.tail (h : Lower (i :: p)) : Lower p := by
  cases p with
  | nil => exact lower_nil
  | cons j p => simpa [Lower, List.getLast?_cons_cons] using h

theorem Lower.cons (h : Lower p) (hp : p ≠ []) (i : Fin 512) : Lower (i :: p) := by
  cases p with
  | nil => exact absurd rfl hp
  | cons j p => simpa [Lower, List.getLast?_cons_cons] using h

theorem Lower.suffix (h : Lower q) (hpq : p <:+ q) : Lower p := by
  obtain ⟨l, rfl⟩ := hpq
  induction l with
  | nil => exact h
  | cons i l ih => exact ih h.tail

theorem tableAt_cons_eq_some : tableAt s r (i :: p) = some t ↔
    ∃ t', tableAt s r p = some t' ∧ (s.mem t' i).present = true ∧ (s.mem t' i).frame = t := by
  simp only [tableAt, Option.bind_eq_some_iff, Option.ite_none_right_eq_some, Option.some.injEq]

theorem entryAt_cons_eq_some : entryAt s r (i :: p) = some e ↔
    ∃ t, tableAt s r p = some t ∧ s.mem t i = e := by
  simp only [entryAt, Option.map_eq_some_iff]

/-- The table at a path depends only on the entries on the way. -/
theorem tableAt_congr (h : ∀ p j t, (j :: p) <:+ q → tableAt s r p = some t →
    s'.mem t j = s.mem t j) : tableAt s' r q = tableAt s r q := by
  induction q with
  | nil => rfl
  | cons i q ih =>
    have hq := ih fun p j t hp => h p j t (hp.trans (List.suffix_cons i q))
    simp only [tableAt, hq]
    cases ht : tableAt s r q with
    | none => rfl
    | some t => simp only [Option.bind_some, h q i t List.suffix_rfl ht]

/-- There is no table below a path without a table. -/
theorem tableAt_eq_none (h : tableAt s r p = none) (hpq : p <:+ q) : tableAt s r q = none := by
  obtain ⟨l, rfl⟩ := hpq
  induction l with
  | nil => exact h
  | cons i l ih =>
    rw [List.cons_append, tableAt, ih]
    rfl

/-! ## Tables and user pages of the address spaces -/

instance : DecidablePred Lower := fun p =>
  inferInstanceAs (Decidable (∀ i ∈ p.getLast?, i.val < 256))

/-- `t` is the table at path `p` of the address space with root `r`. -/
structure IsTable (s : Machine) (roots : List ℕ) (r : ℕ) (p : Path) (t : ℕ) : Prop where
  root : r ∈ roots
  length : p.length ≤ 3
  lower : Lower p
  eq : tableAt s r p = some t

/-- The user page of an entry. -/
def pageOf (e : Word) : Option (Page ℕ) :=
  if e.present && e.user then some ⟨e.frame, e.rw⟩ else none

/-- The user page at a path of an address space. -/
def userPage (s : Machine) (roots : List ℕ) (k : ℕ × Path) : Option (Page ℕ) :=
  if k.1 ∈ roots ∧ k.2.length = 4 ∧ Lower k.2 then (entryAt s k.1 k.2).bind pageOf else none

/-- The tables of the address spaces are allocated frames, each in one place, the lower half
has no large pages, and user pages are in allocated frames that are not tables. -/
structure Tables (s : Machine) (roots : List ℕ) : Prop where
  alloc : ∀ {r p t}, IsTable s roots r p t → s.free t = false
  inj : ∀ {r p r' p' t}, IsTable s roots r p t → IsTable s roots r' p' t → r = r' ∧ p = p'
  noPs : ∀ {r p t}, IsTable s roots r p t → p ≠ [] → p.length ≤ 2 → ∀ i,
    (s.mem t i).present = true → (s.mem t i).ps = false
  data : ∀ {k pg}, userPage s roots k = some pg →
    s.free pg.frame = false ∧ ∀ r p, ¬ IsTable s roots r p pg.frame

variable {roots : List ℕ} {c : ℕ} {s : Machine} {r' : ℕ}

theorem Machine.writeEntry_mem (s : Machine) (t : ℕ) (i : Fin 512) (e : Word) (t' : ℕ)
    (j : Fin 512) : (s.writeEntry t i e).mem t' j = if t' = t ∧ j = i then e else s.mem t' j := by
  unfold writeEntry
  by_cases ht : t' = t
  · subst ht
    by_cases hj : j = i
    · subst hj
      simp
    · simp [hj]
  · simp [ht]

theorem Machine.writeEntry_mem_of_ne (h : ¬ (t' = t ∧ j = i)) :
    (s.writeEntry t i e).mem t' j = s.mem t' j := by
  rw [writeEntry_mem, if_neg h]

theorem Machine.writeEntry_self (s : Machine) (t : ℕ) (i : Fin 512) :
    s.writeEntry t i (s.mem t i) = s := by
  simp [writeEntry]

theorem Machine.writeEntry_twice (s : Machine) (t : ℕ) (i : Fin 512) (e e' : Word) :
    (s.writeEntry t i e).writeEntry t i e' = s.writeEntry t i e' := by
  simp [writeEntry]

theorem Machine.writeEntry_comm (ht : t ≠ t') {i j : Fin 512} {e e' : Word} :
    (s.writeEntry t' j e').writeEntry t i e = (s.writeEntry t i e).writeEntry t' j e' := by
  simp [writeEntry, update_comm ht, update_of_ne ht,
    update_of_ne ht.symm]

theorem userPage_eq_some {pg : Page ℕ} :
    userPage s roots (r, q) = some pg ↔ ∃ i p t, q = i :: p ∧ p.length = 3 ∧ Lower q ∧
      IsTable s roots r p t ∧ pageOf (s.mem t i) = some pg := by
  rw [userPage, Option.ite_none_right_eq_some]
  constructor
  · rintro ⟨⟨hr, hq, hlow⟩, h⟩
    obtain ⟨e, he, hpage⟩ := Option.bind_eq_some_iff.mp h
    cases q with
    | nil => cases hq
    | cons i p =>
      obtain ⟨t, ht, rfl⟩ := entryAt_cons_eq_some.mp he
      have hp : p.length = 3 := by simpa using hq
      exact ⟨i, p, t, rfl, hp, hlow, ⟨hr, hp.le, hlow.tail, ht⟩, hpage⟩
  · rintro ⟨i, p, t, rfl, hp, hlow, ht, hpage⟩
    refine ⟨⟨ht.root, by simp [hp], hlow⟩, Option.bind_eq_some_iff.mpr ⟨_, ?_, hpage⟩⟩
    exact entryAt_cons_eq_some.mpr ⟨t, ht.eq, rfl⟩

/-- The entries that paths of the lower half read are the same. -/
def SameEntries (s s' : Machine) (roots : List ℕ) : Prop :=
  ∀ r p t j, IsTable s roots r p t → Lower (j :: p) → s'.mem t j = s.mem t j

theorem tableAt_of_same (h : SameEntries s s' roots) (hr : r ∈ roots) (hq : q.length ≤ 4)
    (hlow : Lower q) : tableAt s' r q = tableAt s r q := by
  refine tableAt_congr fun p j t hp ht => ?_
  have hlen := hp.length_le
  rw [List.length_cons] at hlen
  exact h r p t j ⟨hr, by omega, (hlow.suffix hp).tail, ht⟩ (hlow.suffix hp)

theorem isTable_of_same (h : SameEntries s s' roots) :
    IsTable s' roots r p t ↔ IsTable s roots r p t := by
  constructor
  · rintro ⟨hr, hp, hlow, ht⟩
    rw [tableAt_of_same h hr (by omega) hlow] at ht
    exact ⟨hr, hp, hlow, ht⟩
  · rintro ⟨hr, hp, hlow, ht⟩
    rw [← tableAt_of_same h hr (by omega) hlow] at ht
    exact ⟨hr, hp, hlow, ht⟩

theorem userPage_of_same (h : SameEntries s s' roots) :
    userPage s' roots = userPage s roots := by
  funext ⟨r, q⟩
  refine Option.ext fun pg => ?_
  rw [userPage_eq_some, userPage_eq_some]
  simp only [isTable_of_same h]
  refine exists_congr fun i => exists_congr fun p => exists_congr fun t => ?_
  refine and_congr_right fun hq => and_congr_right fun _ => and_congr_right fun hlow => ?_
  exact and_congr_right fun ht => by rw [h r p t i ht (hq ▸ hlow)]

/-- The tables stay when their entries do and no frame becomes free. -/
theorem Tables.of_same (htab : Tables s roots) (h : SameEntries s s' roots)
    (hfree : ∀ f, s.free f = false → s'.free f = false) : Tables s' roots where
  alloc := fun ht => hfree _ (htab.alloc ((isTable_of_same h).mp ht))
  inj := fun ht ht' => htab.inj ((isTable_of_same h).mp ht) ((isTable_of_same h).mp ht')
  noPs := fun {r p t} hp hne hlen i => by
    have ht := (isTable_of_same h).mp hp
    rw [h r p t i ht (ht.lower.cons hne i)]
    exact htab.noPs ht hne hlen i
  data := fun hk => by
    rw [userPage_of_same h] at hk
    exact ⟨hfree _ (htab.data hk).1, fun r p ht => (htab.data hk).2 r p ((isTable_of_same h).mp ht)⟩

/-- A frame that is not a table can change. -/
theorem sameEntries_of_notTable (hc : ∀ r p, ¬ IsTable s roots r p c)
    (hmem : ∀ t ≠ c, s'.mem t = s.mem t) : SameEntries s s' roots := by
  intro r p t j ht _
  rw [hmem t]
  rintro rfl
  exact hc r p ht

/-! ### Writing an entry of a PT -/

section LeafWrite

variable (htab : Tables s roots) (ht : IsTable s roots r p t) (hp : p.length = 3)
include htab ht hp

section

variable (i : Fin 512) (e : Word)

theorem tableAt_writeLeaf (hr' : r' ∈ roots) (hq : q.length ≤ 3) (hlow : Lower q) :
    tableAt (s.writeEntry t i e) r' q = tableAt s r' q := by
  refine tableAt_congr fun p' j t' hp' ht' => Machine.writeEntry_mem_of_ne ?_
  rintro ⟨rfl, -⟩
  have hlen := hp'.length_le
  rw [List.length_cons] at hlen
  -- Only a PT is written, and it is not on the way to a table.
  obtain ⟨-, rfl⟩ := htab.inj ht ⟨hr', by omega, (hlow.suffix hp').tail, ht'⟩
  omega

theorem isTable_writeLeaf {t' : ℕ} :
    IsTable (s.writeEntry t i e) roots r' q t' ↔ IsTable s roots r' q t' := by
  constructor
  · rintro ⟨hr', hq, hlow, ht'⟩
    rw [tableAt_writeLeaf htab ht hp i e hr' hq hlow] at ht'
    exact ⟨hr', hq, hlow, ht'⟩
  · rintro ⟨hr', hq, hlow, ht'⟩
    rw [← tableAt_writeLeaf htab ht hp i e hr' hq hlow] at ht'
    exact ⟨hr', hq, hlow, ht'⟩

theorem userPage_writeLeaf :
    userPage (s.writeEntry t i e) roots =
      update (userPage s roots) (r, i :: p) (pageOf e) := by
  funext ⟨r', q⟩
  refine Option.ext fun pg => ?_
  rw [userPage_eq_some]
  simp only [isTable_writeLeaf htab ht hp i e]
  by_cases hk : (r', q) = (r, i :: p)
  · cases hk
    have hlow := ht.lower.cons (List.ne_nil_of_length_eq_add_one hp) i
    rw [update_self]
    constructor
    · rintro ⟨j, p', t', hq, -, -, ht', hpage⟩
      obtain ⟨rfl, rfl⟩ := List.cons.inj hq
      obtain rfl : t = t' := Option.some.inj (ht.eq.symm.trans ht'.eq)
      rwa [Machine.writeEntry_mem, if_pos ⟨rfl, rfl⟩] at hpage
    · intro hpage
      refine ⟨i, p, t, rfl, hp, hlow, ht, ?_⟩
      rwa [Machine.writeEntry_mem, if_pos ⟨rfl, rfl⟩]
  · rw [update_of_ne hk, userPage_eq_some]
    refine exists_congr fun j => exists_congr fun p' => exists_congr fun t' => ?_
    refine and_congr_right fun hq => and_congr_right fun _ => and_congr_right fun _ => ?_
    refine and_congr_right fun ht' => ?_
    rw [Machine.writeEntry_mem_of_ne]
    rintro ⟨rfl, rfl⟩
    obtain ⟨rfl, rfl⟩ := htab.inj ht ht'
    exact hk (hq ▸ rfl)

/-- The tables stay when an entry of a PT is written whose page, if any, is in an allocated
frame that is not a table. -/
theorem Tables.writeLeaf (hdata : ∀ pg, pageOf e = some pg →
    s.free pg.frame = false ∧ ∀ r p, ¬ IsTable s roots r p pg.frame) :
    Tables (s.writeEntry t i e) roots where
  alloc := fun ht' => htab.alloc ((isTable_writeLeaf htab ht hp i e).mp ht')
  inj := fun ht' ht'' => htab.inj ((isTable_writeLeaf htab ht hp i e).mp ht')
    ((isTable_writeLeaf htab ht hp i e).mp ht'')
  noPs := fun {r' q t'} hq hne hlen j => by
    have hold := (isTable_writeLeaf htab ht hp i e).mp hq
    rw [Machine.writeEntry_mem_of_ne]
    · exact htab.noPs hold hne hlen j
    · rintro ⟨rfl, -⟩
      obtain ⟨-, rfl⟩ := htab.inj ht hold
      omega
  data := fun {k pg} hk => by
    simp only [isTable_writeLeaf htab ht hp i e]
    rw [userPage_writeLeaf htab ht hp i e] at hk
    by_cases hk' : k = (r, i :: p)
    · subst hk'
      rw [update_self] at hk
      exact hdata pg hk
    · rw [update_of_ne hk'] at hk
      exact htab.data hk

end

end LeafWrite

end Tomahawk.Memory
