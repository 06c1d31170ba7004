import Mathlib.Data.List.Basic

/-!
# Runs of a deterministic system

A component is a step function on its state. A statement about every finite
sequence of calls is one about `run`, and a precondition on the state
before each call is a `guard`. The rules here turn facts about one step into
facts about whole runs; they name nothing of the kernel.
-/

namespace Tomahawk.Lib

variable {S A : Type*} {step : S → A → S} {guard : S → A → Prop} {s : S} {as : List A}
  {p : A → Prop} {I : S → Prop} {T O : Type*} {R : S → T → Prop} {t : T}

/-- The state after a finite sequence of actions. -/
def run (step : S → A → S) (s : S) (as : List A) : S := as.foldl step s

@[simp] theorem run_nil (step : S → A → S) (s : S) : run step s [] = s := rfl

@[simp] theorem run_cons (step : S → A → S) (s : S) (a : A) (as : List A) :
    run step s (a :: as) = run step (step s a) as := rfl

/-- Running a concatenation is running the first part and then the second. -/
theorem run_append (step : S → A → S) (s : S) (as bs : List A) :
    run step s (as ++ bs) = run step (run step s as) bs := by
  simp [run]

/-- Every action of the run meets `guard` in the state just before it. -/
def Guarded (step : S → A → S) (guard : S → A → Prop) : S → List A → Prop
  | _, [] => True
  | s, a :: as => guard s a ∧ Guarded step guard (step s a) as

/-- Whether a run is guarded is found by running it. -/
instance Guarded.decidable {step : S → A → S} {guard : S → A → Prop}
    [∀ s a, Decidable (guard s a)] : (s : S) → (as : List A) → Decidable (Guarded step guard s as)
  | _, [] => isTrue trivial
  | s, a :: as =>
    @instDecidableAnd _ _ _ (Guarded.decidable (step s a) as)

/-- A guarded run splits at any point, so what is proved of the last state of
every guarded run holds of every state such a run passes through. -/
theorem guarded_append {bs : List A} :
    Guarded step guard s (as ++ bs) ↔
      Guarded step guard s as ∧ Guarded step guard (run step s as) bs := by
  induction as generalizing s with
  | nil => simp [Guarded]
  | cons a as ih => simp [Guarded, ih, and_assoc]

/-- A condition on the actions alone guards a run when it holds of each of them. -/
theorem guarded_of_forall (h : ∀ a ∈ as, p a) : Guarded step (fun _ a => p a) s as := by
  induction as generalizing s with
  | nil => trivial
  | cons a as ih =>
    exact ⟨h a (by simp), ih fun b hb => h b (by simp [hb])⟩

/-- A guarded run whose actions all meet a condition is guarded by both. -/
theorem Guarded.and_forall (h : Guarded step guard s as) (hp : ∀ a ∈ as, p a) :
    Guarded step (fun s a => guard s a ∧ p a) s as := by
  induction as generalizing s with
  | nil => trivial
  | cons a as ih => exact ⟨⟨h.1, hp a (by simp)⟩, ih h.2 fun b hb => hp b (by simp [hb])⟩

/-- What the guard says of the actions alone holds of each of them. -/
theorem Guarded.forall_of_imp (h : Guarded step guard s as) (himp : ∀ s a, guard s a → p a) :
    ∀ a ∈ as, p a := by
  induction as generalizing s with
  | nil => simp
  | cons a as ih =>
    intro b hb
    rcases List.mem_cons.mp hb with rfl | hb
    · exact himp s b h.1
    · exact ih h.2 b hb

/-- The invariant rule: what one guarded step preserves, a guarded run preserves. -/
theorem run_invariant (hstep : ∀ s a, I s → guard s a → I (step s a)) (hs : I s)
    (hg : Guarded step guard s as) : I (run step s as) := by
  induction as generalizing s with
  | nil => exact hs
  | cons a as ih => exact ih (hstep s a hs hg.1) hg.2

/-- What every step preserves, a run preserves. -/
theorem run_preserves (hstep : ∀ s a, I s → I (step s a)) (hs : I s) : I (run step s as) := by
  induction as generalizing s with
  | nil => exact hs
  | cons a as ih => exact ih (hstep s a hs)

/-- The simulation rule for states: what relates two systems after one guarded step relates them
after a guarded run. -/
theorem run_simulation {step' : T → A → T}
    (hstep : ∀ s t a, R s t → guard s a → R (step s a) (step' t a)) (hR : R s t)
    (hg : Guarded step guard s as) :
    R (run step s as) (run step' t as) := by
  induction as generalizing s t with
  | nil => exact hR
  | cons a as ih => exact ih (hstep s t a hR hg.1) hg.2

/-- The state after a sequence of actions, with what each of them returned. -/
def trace {O : Type*} (step : S → A → S × O) : S → List A → S × List O
  | s, [] => (s, [])
  | s, a :: as =>
    let r := step s a
    let t := trace step r.1 as
    (t.1, r.2 :: t.2)

/-- The simulation rule: when related states answer every admitted action alike and stay
related, related states answer every admitted sequence alike. -/
theorem trace_simulation {step : S → A → S × O} {step' : T → A → T × O}
    (hstep : ∀ s t a, R s t → p a → R (step s a).1 (step' t a).1 ∧ (step s a).2 = (step' t a).2)
    (hR : R s t) (has : ∀ a ∈ as, p a) :
    R (trace step s as).1 (trace step' t as).1 ∧
      (trace step s as).2 = (trace step' t as).2 := by
  induction as generalizing s t with
  | nil => exact ⟨hR, rfl⟩
  | cons a as ih =>
    obtain ⟨hR', hout⟩ := hstep s t a hR (has a (by simp))
    obtain ⟨hR'', houts⟩ := ih hR' fun b hb => has b (by simp [hb])
    exact ⟨hR'', by simp only [trace, hout, houts]⟩

/-- The state after one more action. -/
theorem trace_append_fst (step : S → A → S × O) (s : S) (as : List A) (a : A) :
    (trace step s (as ++ [a])).1 = (step (trace step s as).1 a).1 := by
  induction as generalizing s with
  | nil => rfl
  | cons b as ih => simp only [List.cons_append, trace, ih]

end Tomahawk.Lib
