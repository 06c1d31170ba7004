import Mathlib.Data.Fintype.Card

/-!
# Walks along a function

A walk applies a function again and again until it meets a stop. When the function has finitely
many values, a walk that stops at all does so within as many steps.
-/

namespace Tomahawk.Lib

open Function

variable {α : Type*} {f : α → α} {x : α}

/-- The part of a walk between two equal values can be left out. -/
theorem iterate_skip {i j n : ℕ} (hij : i ≤ j) (hj : j ≤ n) (heq : f^[i] x = f^[j] x) :
    f^[n - (j - i)] x = f^[n] x := by
  rw [show n - (j - i) = n - j + i by omega, iterate_add_apply, heq,
    ← iterate_add_apply, Nat.sub_add_cancel hj]

/-- A walk with values in a finite set that stops does so early. -/
theorem exists_iterate_le {t : Finset α} {S : α → Prop} (hf : ∀ y, f y ∈ t)
    (h : ∃ n, S (f^[n] x)) : ∃ n ≤ t.card, S (f^[n] x) := by
  classical
  refine ⟨Nat.find h, ?_, Nat.find_spec h⟩
  by_contra hlong
  -- After the first step there are more values on the way than the set has.
  obtain ⟨i, hi, j, hj, hne, heq⟩ := Finset.exists_ne_map_eq_of_card_lt_of_maps_to
    (s := Finset.range (t.card + 1)) (t := t) (by simp) (f := fun k => f^[k + 1] x)
    fun k _ => by
      simp only [Finset.mem_coe, iterate_succ_apply']
      exact hf _
  rw [Finset.mem_range] at hi hj
  have hshorter : ∀ i j, i < j → j < t.card + 1 → f^[i + 1] x = f^[j + 1] x → False := by
    intro i j hij hj heq
    refine Nat.find_min h (m := Nat.find h - (j + 1 - (i + 1))) (by omega) ?_
    rw [iterate_skip (by omega) (by omega) heq]
    exact Nat.find_spec h
  rcases lt_or_gt_of_ne hne with hlt | hlt
  · exact hshorter i j hlt hj heq
  · exact hshorter j i hlt hi heq.symm

end Tomahawk.Lib
