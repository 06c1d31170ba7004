import Mathlib.Data.Option.Basic

/-!
# Programs with a state

A program takes a state and returns a value and the next state, or does not return. `Ensures` says
that it returns from the states with a property, and how the states before and after are related.
It follows the shape of a program: a relation that is reflexive and transitive holds of a sequence
if it holds of each part.
-/

namespace Tomahawk.Lib

/-- A program on states of type `S`. -/
abbrev Prog (S α : Type) := StateT S Option α

variable {S α β : Type} {R : S → S → Prop} {P Q : S → Prop} {f : Prog S α} {g : α → Prog S β}
  {u : S → S}

theorem Prog.bind_eq_some {s : S} {r : β × S} :
    (f >>= g) s = some r ↔ ∃ p, f s = some p ∧ g p.1 p.2 = some r :=
  Option.bind_eq_some_iff

/-- The program returns from every state with the property, and relates the states before and
after. -/
def Ensures (P : S → Prop) (R : S → S → Prop) (f : Prog S α) : Prop :=
  ∀ s, P s → ∃ r, f s = some r ∧ R s r.2

theorem Ensures.pure [Std.Refl R] (a : α) : Ensures P R (pure a : Prog S α) :=
  fun s _ => ⟨(a, s), rfl, Std.Refl.refl s⟩

/-- A sequence, where the relation keeps the property. -/
theorem Ensures.bind [IsTrans S R] (hP : ∀ s s', P s → R s s' → P s') (hf : Ensures P R f)
    (hg : ∀ a, Ensures P R (g a)) : Ensures P R (f >>= g) := by
  intro s hs
  obtain ⟨p, hp, hR⟩ := hf s hs
  obtain ⟨r, hr, hR'⟩ := hg p.1 p.2 (hP s p.2 hs hR)
  exact ⟨r, Prog.bind_eq_some.mpr ⟨p, hp, hr⟩, IsTrans.trans _ _ _ hR hR'⟩

theorem Ensures.get [Std.Refl R] : Ensures P R (get : Prog S S) :=
  fun s _ => ⟨(s, s), rfl, Std.Refl.refl s⟩

theorem Ensures.modify (hu : ∀ s, R s (u s)) :
    Ensures P R (modify u : Prog S Unit) :=
  fun s _ => ⟨((), u s), rfl, hu s⟩

theorem Ensures.mono (hf : Ensures P R f) (h : ∀ s, Q s → P s) : Ensures Q R f :=
  fun s hs => hf s (h s hs)

/-- How the states are related when the program has returned. -/
theorem Ensures.related (hf : Ensures P R f) {s : S} {r : α × S} (hs : P s) (h : f s = some r) :
    R s r.2 := by
  obtain ⟨r', hr', hR⟩ := hf s hs
  obtain rfl := Option.some.inj (hr'.symm.trans h)
  exact hR

end Tomahawk.Lib
