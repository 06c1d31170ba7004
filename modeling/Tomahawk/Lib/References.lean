import Mathlib.Data.Fintype.Card

/-!
# Reference counts

Places of any kind may refer to an object, and each object has a count. The excess of an
object is what its count has over the places that refer to it: zero at rest, and one for
every reference that is held elsewhere.
-/

namespace Tomahawk.Lib

open Function

variable {A F : Type*} [Fintype A] [DecidableEq F] {table : A → Option F} {a : A} {f g : F}
  {count : F → ℤ}

/-- The places that refer to `f`. -/
def places (table : A → Option F) (f : F) : Finset A := {a | table a = some f}

theorem mem_places : a ∈ places table f ↔ table a = some f := by simp [places]

/-- The count of `f` less the places that refer to it. -/
def excess (count : F → ℤ) (table : A → Option F) (f : F) : ℤ := count f - (places table f).card

/-- Another count. -/
theorem excess_count (f : F) (c : ℤ) :
    excess (update count f c) table =
      update (excess count table) f (excess count table f + (c - count f)) := by
  ext g
  by_cases hg : g = f
  · subst hg
    simp only [excess, update_self]
    omega
  · simp [excess, update_of_ne hg]

/-- A place has its part in the count. -/
theorem count_pos (count : F → ℤ) (ha : table a = some f) (hf : 0 ≤ excess count table f) :
    1 ≤ count f := by
  have hcard : 0 < (places table f).card := Finset.card_pos.mpr ⟨a, mem_places.mpr ha⟩
  unfold excess at hf
  omega

variable [DecidableEq A]

/-- A place that was empty refers to `f`. -/
theorem places_fill (ha : table a = none) :
    places (update table a (some f)) f = insert a (places table f) ∧
      ∀ g ≠ f, places (update table a (some f)) g = places table g := by
  refine ⟨?_, fun g hg => ?_⟩
  · ext b
    rw [Finset.mem_insert, mem_places, mem_places]
    by_cases hb : b = a
    · simp [hb]
    · simp [hb]
  · ext b
    rw [mem_places, mem_places]
    by_cases hb : b = a
    · simp [hb, ha, hg.symm]
    · rw [update_of_ne hb]

theorem excess_fill (ha : table a = none) :
    excess count (update table a (some f)) =
      update (excess count table) f (excess count table f - 1) := by
  obtain ⟨hself, hother⟩ := places_fill (f := f) ha
  ext g
  by_cases hg : g = f
  · subst hg
    have hnot : a ∉ places table g := by simp [mem_places, ha]
    simp only [excess, hself, Finset.card_insert_of_notMem hnot, update_self]
    omega
  · simp only [excess, hother g hg, update_of_ne hg]

theorem excess_clear (ha : table a = some f) :
    excess count (update table a none) =
      update (excess count table) f (excess count table f + 1) := by
  have hfill : excess count (update (update table a none) a (some f)) = _ :=
    excess_fill (update_self ..)
  rw [update_idem, ← ha, update_eq_self] at hfill
  rw [hfill]
  simp

end Tomahawk.Lib
