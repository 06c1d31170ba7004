import Mathlib.Data.List.FinRange

/-!
# Fixed-size tables

The kernel keeps sockets, bind entries and users in arrays of a fixed size and
scans them from index zero for the first entry that passes a test. `firstFin`
is that scan.
-/

namespace Tomahawk.Lib

variable {n : ℕ} {p : Fin n → Bool} {i : Fin n}

/-- The first index of a table that passes a test, scanning upwards from zero. -/
def firstFin (p : Fin n → Bool) : Option (Fin n) := (List.finRange n).find? p

/-- The scan stops at the least index that passes the test. -/
theorem firstFin_eq_some :
    firstFin p = some i ↔ p i = true ∧ ∀ j < i, p j = false := by
  unfold firstFin
  rw [List.find?_eq_some_iff_getElem]
  constructor
  · rintro ⟨hp, k, hk, hget, hall⟩
    have hki : k = i.val := by
      have := congrArg Fin.val hget
      simpa using this
    refine ⟨hp, fun j hj => ?_⟩
    have h := hall j.val (by rw [hki]; exact hj)
    simpa using h
  · rintro ⟨hp, hall⟩
    refine ⟨hp, i.val, by simp, by simp, fun j hj => ?_⟩
    have h := hall ⟨j, by omega⟩ hj
    simpa using h

/-- The scan finds nothing exactly when no entry passes the test. -/
theorem firstFin_eq_none : firstFin p = none ↔ ∀ i, p i = false := by
  simp [firstFin, List.find?_eq_none]

/-- What the scan returns passes the test. -/
theorem firstFin_spec (h : firstFin p = some i) : p i = true :=
  (firstFin_eq_some.mp h).1

/-- A test that exactly one entry passes finds that entry. -/
theorem firstFin_unique (hi : p i = true) (huniq : ∀ j, p j = true → j = i) :
    firstFin p = some i := by
  refine firstFin_eq_some.mpr ⟨hi, fun j hj => ?_⟩
  by_contra hne
  have := huniq j (by simpa using hne)
  omega

/-- Change the first entry that passes a test, if there is one. -/
def updateFirst {E : Type*} (t : Fin n → E) (p : Fin n → Bool) (f : E → E) : Fin n → E :=
  match firstFin p with
  | some i => Function.update t i (f (t i))
  | none => t

/-- When at most one entry passes the test, exactly the passing entries change. -/
theorem updateFirst_apply {E : Type*} {t : Fin n → E} {f : E → E}
    (huniq : ∀ i j, p i = true → p j = true → i = j) (i : Fin n) :
    updateFirst t p f i = if p i = true then f (t i) else t i := by
  unfold updateFirst
  cases hfind : firstFin p with
  | none =>
    have := firstFin_eq_none.mp hfind i
    simp [this]
  | some k =>
    have hk := firstFin_spec hfind
    by_cases hik : i = k
    · subst hik
      simp [hk]
    · have hi : p i ≠ true := fun hi => hik (huniq i k hi hk)
      simp [Function.update_of_ne hik, hi]

section Keyed

variable {E K : Type*} (live : E → Bool) (key : E → K) {t t' : Fin n → E} {e : E}

/-- No two live entries have the same key. -/
def UniqueKeys (t : Fin n → E) : Prop :=
  ∀ i j, live (t i) = true → live (t j) = true → key (t i) = key (t j) → i = j

/-- An entry gets a new key. -/
theorem UniqueKeys.update (h : UniqueKeys live key t) (k : Fin n)
    (hnew : live e = true → ∀ j ≠ k, live (t j) = true → key (t j) ≠ key e) :
    UniqueKeys live key (Function.update t k e) := by
  intro i j hi hj hij
  rw [Function.update_apply] at hi hj hij
  rw [Function.update_apply] at hij
  split_ifs at hi hj hij with hik hjk hjk
  · rw [hik, hjk]
  · exact absurd hij.symm (hnew hi j hjk hj)
  · exact absurd hij (hnew hj i hik hi)
  · exact h i j hi hj hij

/-- Fewer entries are live. -/
theorem UniqueKeys.sub (h : UniqueKeys live key t)
    (ht : ∀ i, live (t' i) = true → t' i = t i) : UniqueKeys live key t' := by
  intro i j hi hj hij
  have hti := ht i hi
  have htj := ht j hj
  rw [hti] at hi hij
  rw [htj] at hj hij
  exact h i j hi hj hij

end Keyed

/-- How many entries below `i` pass a test. -/
def rank (p : Fin n → Bool) (i : Fin n) : ℕ := ((List.finRange n).take i.val).countP p

theorem mem_take_finRange {j : Fin n} : j ∈ (List.finRange n).take i.val ↔ j < i := by
  rw [List.mem_take_iff_getElem]
  constructor
  · rintro ⟨k, hk, rfl⟩
    have hki : k < i.val := by omega
    simpa [Fin.lt_def] using hki
  · intro h
    have hj : j.val < i.val := h
    exact ⟨j.val, by simpa using hj, by simp⟩

theorem rank_le (p : Fin n → Bool) (i : Fin n) : rank p i ≤ i.val := by
  have h := List.countP_le_length (p := p) (l := (List.finRange n).take i.val)
  have hlength := List.length_take_le i.val (List.finRange n)
  simp only [rank]
  omega

/-- The rank of an index is the index itself exactly when every entry below passes. -/
theorem rank_eq_iff : rank p i = i.val ↔ ∀ j < i, p j = true := by
  have hlength : ((List.finRange n).take i.val).length = i.val := by
    simp
  have h := List.countP_eq_length (p := p) (l := (List.finRange n).take i.val)
  rw [hlength] at h
  rw [rank, h]
  exact ⟨fun hall j hj => hall j (mem_take_finRange.mpr hj),
    fun hall j hj => hall j (mem_take_finRange.mp hj)⟩

/-- The entries that pass a test, in order: each of them stands at its rank. -/
theorem filter_getElem?_rank (h : p i = true) :
    ((List.finRange n).filter p)[rank p i]? = some i := by
  have hsplit := List.take_append_drop i.val (List.finRange n)
  have hdrop : (List.finRange n).drop i.val = i :: (List.finRange n).drop (i.val + 1) := by
    rw [List.drop_eq_getElem_cons (by simp)]
    simp
  rw [← hsplit, List.filter_append, hdrop, List.filter_cons_of_pos h, rank,
    List.countP_eq_length_filter, List.getElem?_append_right (le_refl _), Nat.sub_self]
  rfl

/-- What stands in that list passes the test, and its position is its rank. -/
theorem rank_of_filter_getElem? {k : ℕ} (h : ((List.finRange n).filter p)[k]? = some i) :
    p i = true ∧ k = rank p i := by
  have hp : p i = true := List.of_mem_filter (List.mem_of_getElem? h)
  have hnodup : ((List.finRange n).filter p).Nodup := (List.nodup_finRange n).filter _
  obtain ⟨hk, -⟩ := List.getElem?_eq_some_iff.mp h
  exact ⟨hp, (List.getElem?_inj hk hnodup).mp (h.trans (filter_getElem?_rank hp).symm)⟩

end Tomahawk.Lib
