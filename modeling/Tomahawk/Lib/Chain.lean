import Mathlib.Data.List.Nodup

/-!
# Chains of links

A table maps each link to the next one, and a chain ends where the next link is a stop. A chain
is determined by its start, so two chains that share a link share the rest, and no link is on a
chain twice. Chains depend only on the entries of their own links.
-/

namespace Tomahawk.Lib

variable {α : Type*}

/-- The links from `c` on, up to a stop. -/
def IsChain (ok stop : α → Prop) (next : α → α) : α → List α → Prop
  | c, [] => stop c
  | c, x :: xs => c = x ∧ ok x ∧ IsChain ok stop next (next x) xs

/-- Whether a list is a chain is found by following the links. -/
instance IsChain.decidable [DecidableEq α] {ok stop : α → Prop} [DecidablePred ok]
    [DecidablePred stop] {next : α → α} :
    (c : α) → (l : List α) → Decidable (IsChain ok stop next c l)
  | c, [] => inferInstanceAs (Decidable (stop c))
  | _, x :: xs =>
    @instDecidableAnd _ _ _ (@instDecidableAnd _ _ _ (IsChain.decidable (next x) xs))

namespace IsChain

variable {ok stop : α → Prop} {next next' : α → α} {c x : α} {l l' : List α}

section

variable (h : IsChain ok stop next c l)
include h

theorem mem_ok (hx : x ∈ l) : ok x := by
  induction l generalizing c with
  | nil => simp at hx
  | cons y ys ih =>
    obtain ⟨-, hy, hys⟩ := h
    rcases List.mem_cons.mp hx with rfl | hx
    · exact hy
    · exact ih hys hx

/-- A chain that is not empty begins at its start. -/
theorem eq_cons (hc : ¬ stop c) :
    ∃ xs, l = c :: xs ∧ IsChain ok stop next (next c) xs := by
  cases l with
  | nil => exact absurd h hc
  | cons x xs =>
    obtain ⟨rfl, -, hxs⟩ := h
    exact ⟨xs, rfl, hxs⟩

/-- The rest of a chain from one of its links on. -/
theorem drop {xs ys : List α} (hl : l = xs ++ x :: ys) :
    IsChain ok stop next x (x :: ys) := by
  induction xs generalizing c l with
  | nil =>
    subst hl
    exact ⟨rfl, h.2.1, h.2.2⟩
  | cons y xs ih =>
    subst hl
    exact ih h.2.2 rfl

/-- A chain depends only on the entries of its links. -/
theorem congr (heq : ∀ x ∈ l, next' x = next x) :
    IsChain ok stop next' c l := by
  induction l generalizing c with
  | nil => exact h
  | cons x xs ih =>
    obtain ⟨hc, hx, hxs⟩ := h
    refine ⟨hc, hx, ?_⟩
    rw [heq x (by simp)]
    exact ih hxs fun y hy => heq y (by simp [hy])

/-- The entry of a link leads to the next link or to a stop. -/
theorem next_mem (hx : x ∈ l) : next x ∈ l ∨ stop (next x) := by
  induction l generalizing c with
  | nil => simp at hx
  | cons y ys ih =>
    obtain ⟨rfl, hy, hys⟩ := h
    rcases List.mem_cons.mp hx with rfl | hx
    · cases ys with
      | nil => exact .inr hys
      | cons z zs => exact .inl (by simp [hys.1])
    · rcases ih hys hx with hmem | hstop
      · exact .inl (.tail _ hmem)
      · exact .inr hstop

/-- A chain gets a new last link. -/
theorem append (hl : l ≠ []) (hnew : x ∉ l) (hx : ok x) (hnodup : l.Nodup)
    (hlast : next' (l.getLast hl) = x) (hstop : stop (next' x))
    (heq : ∀ y ∈ l, y ≠ l.getLast hl → next' y = next y) :
    IsChain ok stop next' c (l ++ [x]) := by
  induction l generalizing c with
  | nil => exact absurd rfl hl
  | cons y ys ih =>
    obtain ⟨rfl, hy, hys⟩ := h
    refine ⟨rfl, hy, ?_⟩
    cases ys with
    | nil => exact ⟨hlast, hx, hstop⟩
    | cons z zs =>
      have hgetLast : (c :: z :: zs).getLast hl = (z :: zs).getLast (List.cons_ne_nil z zs) :=
        List.getLast_cons _
      have hne : c ≠ (z :: zs).getLast (List.cons_ne_nil z zs) := by
        rintro hc
        exact (List.nodup_cons.mp hnodup).1 (hc ▸ List.getLast_mem _)
      rw [heq c (by simp) hne]
      exact ih hys (List.cons_ne_nil z zs) (fun hmem => hnew (by simp [hmem]))
        (List.nodup_cons.mp hnodup).2 hlast fun w hw => heq w (.tail _ hw)

end

variable (hstop : ∀ x, ok x → ¬ stop x)

include hstop

/-- The start determines the chain. -/
theorem unique (h : IsChain ok stop next c l) (h' : IsChain ok stop next c l') : l = l' := by
  induction l generalizing c l' with
  | nil =>
    cases l' with
    | nil => rfl
    | cons x xs => exact absurd (h'.1 ▸ h) (hstop x h'.2.1)
  | cons x xs ih =>
    obtain ⟨rfl, hx, hxs⟩ := h
    obtain ⟨xs', rfl, hxs'⟩ := h'.eq_cons (hstop c hx)
    rw [ih hxs hxs']

/-- No link is on a chain twice. -/
theorem nodup (h : IsChain ok stop next c l) : l.Nodup := by
  induction l generalizing c with
  | nil => exact List.nodup_nil
  | cons x xs ih =>
    obtain ⟨rfl, hx, hxs⟩ := h
    refine List.nodup_cons.mpr ⟨fun hmem => ?_, ih hxs⟩
    obtain ⟨as, bs, rfl⟩ := List.append_of_mem hmem
    -- The chain from `c` would be the whole list and also its rest.
    have hlong : IsChain ok stop next c (c :: (as ++ c :: bs)) := ⟨rfl, hx, hxs⟩
    have hshort : IsChain ok stop next c (c :: bs) := hxs.drop rfl
    have hlength := congrArg List.length (hlong.unique hstop hshort)
    simp at hlength
    omega

end IsChain

end Tomahawk.Lib
