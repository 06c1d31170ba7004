import Mathlib.Algebra.BigOperators.Group.Finset.Piecewise
import Mathlib.Data.Fintype.Basic

/-!
# Merges of sequences

A list is a merge of several sequences when its elements can be given to the sequences, each
to one, such that every sequence gets its own elements in its own order.
-/

namespace Tomahawk.Lib

open Function

variable {T α : Type*} [DecidableEq T] {parts : T → List α} {l : List α}

/-- The elements of `log` that belong to `t`. -/
def partOf (log : List (T × α)) (t : T) : List α :=
  (log.filter fun x => x.1 = t).map Prod.snd

/-- The list is an order-preserving merge of the sequences. -/
def IsMerge (parts : T → List α) (l : List α) : Prop :=
  ∃ log : List (T × α), log.map Prod.snd = l ∧ ∀ t, partOf log t = parts t

/-- The empty merge. -/
theorem isMerge_nil : IsMerge (fun _ : T => ([] : List α)) [] := ⟨[], rfl, fun _ => rfl⟩

/-- Elements that one sequence adds at its end come last. -/
theorem IsMerge.append (h : IsMerge parts l) (t : T) (bs : List α) :
    IsMerge (update parts t (parts t ++ bs)) (l ++ bs) := by
  obtain ⟨log, rfl, hparts⟩ := h
  refine ⟨log ++ bs.map fun b => (t, b), by simp [comp_def], fun u => ?_⟩
  by_cases hu : u = t
  · subst hu
    rw [update_self, ← hparts u]
    simp [partOf, List.filter_append, List.filter_map, comp_def]
  · have hne : ¬ t = u := fun heq => hu heq.symm
    rw [update_of_ne hu, ← hparts u]
    simp [partOf, List.filter_append, List.filter_map, comp_def, hne]

/-- A merge is as long as its sequences together. -/
theorem IsMerge.length_eq [Fintype T] (h : IsMerge parts l) :
    l.length = ∑ t, (parts t).length := by
  obtain ⟨log, rfl, hparts⟩ := h
  simp only [← hparts, partOf, List.length_map]
  clear hparts
  induction log with
  | nil => simp
  | cons x log ih =>
    -- The new element belongs to exactly one sequence.
    have hcons : ∀ t, ((x :: log).filter fun y => decide (y.1 = t)).length =
        (log.filter fun y => decide (y.1 = t)).length + if x.1 = t then 1 else 0 := by
      intro t
      by_cases ht : x.1 = t <;> simp [ht]
    simp [hcons, Finset.sum_add_distrib, ← ih]

end Tomahawk.Lib
