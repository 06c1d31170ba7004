import Mathlib.Data.List.Basic

/-!
# Reading a list from the front

A reader with a cursor takes the next elements of a list, as many as it asks for while there
are so many. Together the pieces are the beginning of the list, and a piece is empty only when
the pieces before it are all of the list.
-/

namespace Tomahawk.Lib

variable {α : Type*}

/-- The pieces that a reader gets when it asks for these lengths. -/
def chunks (content : List α) : List ℕ → List (List α)
  | [] => []
  | n :: ns => content.take n :: chunks (content.drop n) ns

/-- The pieces are the beginning of the list. -/
theorem flatten_chunks_isPrefix (content : List α) (ns : List ℕ) :
    (chunks content ns).flatten <+: content := by
  induction ns generalizing content with
  | nil => exact List.nil_prefix
  | cons n ns ih =>
    conv_rhs => rw [← List.take_append_drop n content]
    exact (List.prefix_append_right_inj _).mpr (ih _)

/-- A reader that asks for something gets nothing exactly at the end. -/
theorem chunks_eq_nil_iff {content : List α} {ns : List ℕ} (hpos : ∀ n ∈ ns, n ≠ 0) {i : ℕ}
    {piece : List α} (h : (chunks content ns)[i]? = some piece) :
    piece = [] ↔ ((chunks content ns).take i).flatten = content := by
  induction ns generalizing content i with
  | nil => simp [chunks] at h
  | cons n ns ih =>
    cases i with
    | zero =>
      simp only [chunks, List.getElem?_cons_zero, Option.some.injEq] at h
      have hn := hpos n (by simp)
      rw [← h, List.take_eq_nil_iff, List.take_zero, List.flatten_nil]
      exact ⟨fun hnil => (hnil.resolve_left hn).symm, fun hnil => .inr hnil.symm⟩
    | succ i =>
      rw [ih (fun m hm => hpos m (by simp [hm])) h]
      simp only [chunks, List.take_succ_cons, List.flatten_cons]
      conv_rhs => rhs; rw [← List.take_append_drop n content]
      rw [List.append_cancel_left_eq]

end Tomahawk.Lib
