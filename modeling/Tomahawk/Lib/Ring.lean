import Mathlib.Algebra.Group.Fin.Basic
import Mathlib.Algebra.GroupWithZero.Nat
import Mathlib.Data.List.Basic

/-!
# Ring buffers

An array that is used round and round, in two forms. With a read index and a write index the
buffer is empty when the two are equal, so one slot always stays unused. With an index and a count
all slots are used.
-/

namespace Tomahawk.Lib

open Function

variable {n : ℕ} {α : Type*} {buf : ℕ → α} {rd wr : ℕ}

/-- The number of slots from `rd` up to `wr`. -/
def ringCount (n rd wr : ℕ) : ℕ := if rd ≤ wr then wr - rd else n - rd + wr

/-- The values from `rd` up to `wr`, in the order in which they are read. -/
def ringContents (n : ℕ) (buf : ℕ → α) (rd wr : ℕ) : List α :=
  (List.range (ringCount n rd wr)).map fun i => buf ((rd + i) % n)

/-- An index that wraps around at most once. -/
theorem add_mod_eq {i j : ℕ} (hi : i < n) (hj : j ≤ n) :
    (i + j) % n = if i + j < n then i + j else i + j - n := by
  split_ifs with h
  · exact Nat.mod_eq_of_lt h
  · rw [Nat.mod_eq_sub_mod (by omega)]
    exact Nat.mod_eq_of_lt (by omega)

@[simp] theorem ringContents_self (buf : ℕ → α) (rd : ℕ) : ringContents n buf rd rd = [] := by
  simp [ringContents, ringCount]

theorem length_ringContents (buf : ℕ → α) (rd wr : ℕ) :
    (ringContents n buf rd wr).length = ringCount n rd wr := by
  simp [ringContents]

/-- A value stored at the write index comes last. -/
theorem ringContents_push (hrd : rd < n) (hwr : wr < n) (hfull : (wr + 1) % n ≠ rd) (b : α) :
    ringContents n (update buf wr b) rd ((wr + 1) % n) =
      ringContents n buf rd wr ++ [b] := by
  have hnext := add_mod_eq hwr (show 1 ≤ n by omega)
  have hcount : ringCount n rd ((wr + 1) % n) = ringCount n rd wr + 1 := by
    unfold ringCount
    split_ifs at hnext ⊢ <;> omega
  have hlt : ringCount n rd wr < n := by
    unfold ringCount
    split_ifs <;> omega
  -- The slots before the write index keep their values.
  have hslot : ∀ i ≤ ringCount n rd wr, (rd + i) % n = wr ↔ i = ringCount n rd wr := by
    intro i hi
    rw [add_mod_eq hrd (by omega)]
    unfold ringCount at hi ⊢
    split_ifs at hi ⊢ <;> omega
  unfold ringContents
  rw [hcount, List.range_succ, List.map_append, List.map_singleton,
    (hslot _ (Nat.le_refl _)).mpr rfl, update_self]
  congr 1
  refine List.map_congr_left fun i hi => update_of_ne ?_ _ _
  rw [List.mem_range] at hi
  rw [Ne, hslot i (Nat.le_of_lt hi)]
  omega

/-- The value at the read index comes first. -/
theorem ringContents_pop (hrd : rd < n) (hwr : wr < n) (hne : rd ≠ wr) :
    ringContents n buf rd wr = buf rd :: ringContents n buf ((rd + 1) % n) wr := by
  have hnext := add_mod_eq hrd (show 1 ≤ n by omega)
  have hcount : ringCount n rd wr = ringCount n ((rd + 1) % n) wr + 1 := by
    unfold ringCount
    split_ifs at hnext ⊢ <;> omega
  unfold ringContents
  rw [hcount, List.range_succ_eq_map, List.map_cons, List.map_map, Nat.add_zero,
    Nat.mod_eq_of_lt hrd]
  congr 1
  refine List.map_congr_left fun i _ => congrArg buf ?_
  rw [Nat.mod_add_mod]
  congr 1
  omega

/-! ## Rings with a count -/

section Counted

variable [NeZero n] {slots : Fin n → α} {head tail : Fin n} {count : ℕ} {l : List α}

/-- The ring holds the values of `l`, the oldest at `tail`; `head` is the slot after the newest. -/
structure IsRing (slots : Fin n → α) (head tail : Fin n) (count : ℕ) (l : List α) : Prop where
  le : count ≤ n
  head_eq : head = tail + Fin.ofNat n count
  items : l = (List.range count).map fun i => slots (tail + Fin.ofNat n i)

theorem IsRing.head_val (h : IsRing slots head tail count l) :
    head.val = (tail.val + count) % n := by
  rw [h.head_eq, Fin.val_add, Fin.val_ofNat, Nat.add_mod_mod]

theorem IsRing.length_eq (h : IsRing slots head tail count l) : l.length = count := by
  rw [h.items, List.length_map, List.length_range]

/-- Different places of a ring are different slots. -/
theorem add_ofNat_inj (tail : Fin n) {i j : ℕ} (hi : i < n) (hj : j < n) :
    tail + Fin.ofNat n i = tail + Fin.ofNat n j ↔ i = j := by
  rw [add_right_inj, Fin.ext_iff, Fin.val_ofNat, Fin.val_ofNat, Nat.mod_eq_of_lt hi,
    Nat.mod_eq_of_lt hj]

theorem ofNat_succ (i : ℕ) : Fin.ofNat n (i + 1) = 1 + Fin.ofNat n i := by
  ext
  simp [Fin.val_add, Nat.add_comm]

theorem IsRing.push (h : IsRing slots head tail count l) (hlt : count < n) (a : α) :
    IsRing (update slots head a) (head + 1) tail (count + 1) (l ++ [a]) := by
  refine ⟨hlt, ?_, ?_⟩
  · rw [h.head_eq, ofNat_succ, add_assoc, add_comm 1]
  · rw [List.range_succ, List.map_append, List.map_singleton, ← h.head_eq, update_self, h.items]
    congr 1
    refine List.map_congr_left fun i hi => (update_of_ne ?_ _ _).symm
    rw [List.mem_range] at hi
    rw [h.head_eq, Ne, add_ofNat_inj tail (hi.trans hlt) hlt]
    exact hi.ne

/-- What is stored in the slot of the oldest value does not matter once `tail` has passed it. -/
theorem IsRing.pop (h : IsRing slots head tail count l) (hne : count ≠ 0) (a : α) :
    l = slots tail :: l.tail ∧ IsRing (update slots tail a) head (tail + 1) (count - 1) l.tail := by
  obtain ⟨count, rfl⟩ := Nat.exists_eq_succ_of_ne_zero hne
  have hnext : ∀ i, tail + Fin.ofNat n (i + 1) = tail + 1 + Fin.ofNat n i := fun i => by
    rw [ofNat_succ, add_assoc]
  have hzero : tail + Fin.ofNat n 0 = tail := add_zero tail
  have hl : l = slots tail ::
      (List.range count).map fun i => slots (tail + 1 + Fin.ofNat n i) := by
    rw [h.items, List.range_succ_eq_map, List.map_cons, List.map_map, hzero]
    exact congrArg _ (List.map_congr_left fun i _ => congrArg slots (hnext i))
  rw [hl]
  refine ⟨rfl, Nat.le_of_succ_le h.le, h.head_eq.trans (hnext count), ?_⟩
  refine List.map_congr_left fun i hi => (update_of_ne ?_ _ _).symm
  have hle := h.le
  rw [List.mem_range] at hi
  rw [← hnext, Ne]
  nth_rewrite 2 [← hzero]
  rw [add_ofNat_inj tail (by omega) (by omega)]
  exact i.succ_ne_zero

end Counted

end Tomahawk.Lib
