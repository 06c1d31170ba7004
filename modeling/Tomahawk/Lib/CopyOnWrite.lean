import Mathlib.Logic.Function.Basic

/-!
# Copy-on-write sharing

Keys of any kind map pages, and a page is a frame with a permission to write to it in
place. A frame is shared by at most two keys, both without the permission, and a
predicate tells which frames count as shared. This is what makes it safe to give the
permission back to a key whose frame does not count as shared.
-/

namespace Tomahawk.Lib

open Function

/-- A mapped page: its frame and whether it can be written in place. -/
@[ext]
structure Page (F : Type*) where
  frame : F
  writable : Bool

variable {K F : Type*} {pages pages' : K → Option (Page F)} {shared shared' : F → Prop} {p : Page F}

/-- No frame can be written through one key and seen through another. -/
structure Isolated (pages : K → Option (Page F)) (shared : F → Prop) : Prop where
  /-- Two keys with one frame may not write to it, and the frame counts as shared. -/
  share : ∀ {k k' p p'}, k ≠ k' → pages k = some p → pages k' = some p' →
    p.frame = p'.frame → p.writable = false ∧ shared p.frame
  /-- No frame has three keys. -/
  pair : ∀ {k k' k'' p p' p''}, pages k = some p → pages k' = some p' → pages k'' = some p'' →
    p.frame = p'.frame → p.frame = p''.frame → k = k' ∨ k = k'' ∨ k' = k''

section

variable (h : Isolated pages shared)
include h

/-- The frame of a writable page has no other key. -/
theorem Isolated.frame_ne {k k' : K} {p' : Page F} (hk : k' ≠ k) (hp : pages k = some p)
    (hw : p.writable = true) (hp' : pages k' = some p') : p'.frame ≠ p.frame := by
  intro heq
  have := (h.share hk.symm hp hp' heq.symm).1
  simp [hw] at this

/-- Fewer pages, and more frames that count as shared. -/
theorem Isolated.mono (hpages : ∀ {k p}, pages' k = some p → pages k = some p)
    (hshared : ∀ {k p}, pages' k = some p → shared p.frame → shared' p.frame) :
    Isolated pages' shared' where
  share := fun hk hp hp' heq =>
    have hs := h.share hk (hpages hp) (hpages hp') heq
    ⟨hs.1, hshared hp hs.2⟩
  pair := fun hp hp' hp'' => h.pair (hpages hp) (hpages hp') (hpages hp'')

/-- The keys of a new mapping stand for keys of the old one. Two keys may stand for the same one if
it could write to its page, and neither of them can any more. -/
theorem Isolated.copy {K' : Type*} {pages' : K' → Option (Page F)} (orig : K' → K)
    (hpages : ∀ {k p'}, pages' k = some p' → ∃ p, pages (orig k) = some p ∧ p.frame = p'.frame ∧
      (p'.writable = true → p.writable = true) ∧ (shared p.frame → shared' p.frame))
    (htwin : ∀ {k k' p p'}, k ≠ k' → orig k = orig k' → pages' k = some p → pages' k' = some p' →
      p.writable = false ∧ shared' p.frame ∧ ∀ q, pages (orig k) = some q → q.writable = true)
    (hpair : ∀ {k k' k'' p p' p''}, pages' k = some p → pages' k' = some p' →
      pages' k'' = some p'' → orig k = orig k' → orig k = orig k'' → k = k' ∨ k = k'' ∨ k' = k'') :
    Isolated pages' shared' where
  share {k k' p p'} hne hp hp' heq := by
    by_cases horig : orig k = orig k'
    · obtain ⟨hw, hs, -⟩ := htwin hne horig hp hp'
      exact ⟨hw, hs⟩
    · obtain ⟨q, hq, hframe, hw, hshared⟩ := hpages hp
      obtain ⟨q', hq', hframe', -⟩ := hpages hp'
      obtain ⟨hold, hs⟩ := h.share horig hq hq' (by rw [hframe, hframe', heq])
      refine ⟨?_, hframe ▸ hshared hs⟩
      by_contra hnot
      simp [hw (by simpa using hnot)] at hold
  pair {k k' k'' p p' p''} hp hp' hp'' heq heq' := by
    -- A key with the frame of two keys of one original has their original.
    have hthird : ∀ {a b c : K'} {pa pb pc}, a ≠ b → orig a = orig b → pages' a = some pa →
        pages' b = some pb → pages' c = some pc → pa.frame = pc.frame → orig a = orig c := by
      intro a b c pa pb pc hab horig ha hb hc hframe
      obtain ⟨q, hq, hqa, -⟩ := hpages ha
      obtain ⟨q', hq', hqc, -⟩ := hpages hc
      by_contra hne
      have hw := (htwin hab horig ha hb).2.2 q hq
      exact h.frame_ne (Ne.symm hne) hq hw hq' (by rw [hqc, hqa, hframe])
    obtain ⟨q, hq, hf, -⟩ := hpages hp
    obtain ⟨q', hq', hf', -⟩ := hpages hp'
    obtain ⟨q'', hq'', hf'', -⟩ := hpages hp''
    by_contra hne
    refine hne ?_
    rcases h.pair hq hq' hq'' (by rw [hf, hf', heq]) (by rw [hf, hf'', heq']) with ho | ho | ho
    · exact hpair hp hp' hp'' ho (hthird (fun h => hne (.inl h)) ho hp hp' hp'' heq')
    · exact hpair hp hp' hp'' (hthird (fun h => hne (.inr (.inl h))) ho hp hp'' hp' heq) ho
    · have ho' := hthird (fun h => hne (.inr (.inr h))) ho hp' hp'' hp heq.symm
      exact hpair hp hp' hp'' ho'.symm (ho'.symm.trans ho)

/-- Replacing the page of one key is safe if its new frame has no other key, whatever then
counts as shared among the frame it leaves and the frame it gets. -/
theorem Isolated.replace [DecidableEq K] {k₀ : K} {p₀ : Page F} (hp : pages k₀ = some p)
    (hfresh : ∀ {k q}, k ≠ k₀ → pages k = some q → q.frame ≠ p₀.frame)
    (hshared : ∀ {k q}, pages k = some q → q.frame ≠ p.frame → shared q.frame → shared' q.frame) :
    Isolated (update pages k₀ (some p₀)) shared' := by
  have hcases : ∀ {k q}, update pages k₀ (some p₀) k = some q →
      (k = k₀ ∧ q = p₀) ∨ (k ≠ k₀ ∧ pages k = some q) := by
    intro k q hq
    by_cases hk : k = k₀
    · subst hk
      rw [update_self] at hq
      exact .inl ⟨rfl, (Option.some.inj hq).symm⟩
    · rw [update_of_ne hk] at hq
      exact .inr ⟨hk, hq⟩
  constructor
  · intro k k' q q' hk hq hq' heq
    rcases hcases hq with ⟨rfl, rfl⟩ | ⟨hk₀, hold⟩
    · rcases hcases hq' with ⟨rfl, -⟩ | ⟨hk₀', hold'⟩
      · exact absurd rfl hk
      · exact absurd heq.symm (hfresh hk₀' hold')
    · rcases hcases hq' with ⟨rfl, rfl⟩ | ⟨hk₀', hold'⟩
      · exact absurd heq (hfresh hk₀ hold)
      · have hs := h.share hk hold hold' heq
        refine ⟨hs.1, hshared hold (fun hframe => ?_) hs.2⟩
        -- A frame with two keys besides `k₀` is not the one that `k₀` leaves.
        rcases h.pair hold hold' hp heq hframe with hkk | hkk | hkk
        · exact hk hkk
        · exact hk₀ hkk
        · exact hk₀' hkk
  · intro k k' k'' q q' q'' hq hq' hq'' heq heq'
    rcases hcases hq with ⟨rfl, rfl⟩ | ⟨hk₀, hold⟩
    · rcases hcases hq' with ⟨rfl, -⟩ | ⟨hk₀', hold'⟩
      · exact .inl rfl
      · exact absurd heq.symm (hfresh hk₀' hold')
    · rcases hcases hq' with ⟨rfl, rfl⟩ | ⟨hk₀', hold'⟩
      · exact absurd heq (hfresh hk₀ hold)
      · rcases hcases hq'' with ⟨rfl, rfl⟩ | ⟨-, hold''⟩
        · exact absurd heq' (hfresh hk₀ hold)
        · exact h.pair hold hold' hold'' heq heq'

end

end Tomahawk.Lib
