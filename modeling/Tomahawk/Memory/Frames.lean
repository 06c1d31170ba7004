import Mathlib.Data.List.FinRange

/-!
# Physical frames

Physical memory, the bitmap of free frames and the reference counts. Frames are given by
their number, which is the physical address divided by 4096.
-/

namespace Tomahawk.Memory

open Function

/-- The constants of a boot: the end of the kernel image, the size of the bitmap and the
number of frames with a reference count. -/
structure Platform where
  kernelEnd : ℕ
  /-- `g_bitmap_bits` -/
  bitmapBits : ℕ
  /-- `g_max_frames` -/
  maxFrames : ℕ
  bitmapBits_le : bitmapBits ≤ 256 * 4096 * 8
  maxFrames_le : maxFrames ≤ 128 * 1024

/-- A word of memory, which can be an entry of a page table. -/
abbrev Word := BitVec 64

/-- Physical memory as frames of 512 words, the bitmap (true for a free frame) and the
reference counts. -/
structure Machine where
  mem : ℕ → Fin 512 → Word
  free : ℕ → Bool
  refs : ℕ → ℕ

/-- The search of `pfa_alloc_frame`, from frame `i` on. -/
def findFree (free : ℕ → Bool) : ℕ → ℕ → Option ℕ
  | 0, _ => none
  | fuel + 1, i => if free i then some i else findFree free fuel (i + 1)

/-- `pfa_alloc_frame`: the first free frame, or 0. -/
def pfaAllocFrame (pl : Platform) (s : Machine) : Machine × ℕ :=
  match findFree s.free pl.bitmapBits 0 with
  | some i => ({ s with free := update s.free i false }, i)
  | none => (s, 0)

/-- `pfa_free_frame` -/
def pfaFreeFrame (pl : Platform) (s : Machine) (f : ℕ) : Machine :=
  if f = 0 ∨ pl.bitmapBits ≤ f then s else { s with free := update s.free f true }

/-- `refcount_inc`: the new count; a full count stays. -/
def refcountInc (pl : Platform) (s : Machine) (f : ℕ) : Machine × ℕ :=
  if pl.maxFrames ≤ f then (s, 0)
  else if s.refs f = 0xFFFFFFFF then (s, 0xFFFFFFFF)
  else ({ s with refs := update s.refs f (s.refs f + 1) }, s.refs f + 1)

/-- `refcount_dec`: the new count; a count of 0 stays. -/
def refcountDec (pl : Platform) (s : Machine) (f : ℕ) : Machine × ℕ :=
  if pl.maxFrames ≤ f then (s, 0)
  else if s.refs f = 0 then (s, 0)
  else ({ s with refs := update s.refs f (s.refs f - 1) }, s.refs f - 1)

/-- `refcount_set` -/
def refcountSet (pl : Platform) (s : Machine) (f count : ℕ) : Machine :=
  if pl.maxFrames ≤ f then s else { s with refs := update s.refs f count }

/-- `refcount_is_shared` -/
def refcountIsShared (pl : Platform) (s : Machine) (f : ℕ) : Bool :=
  if pl.maxFrames ≤ f then false else decide (1 < s.refs f)

variable {pl : Platform} {s : Machine} {f g : ℕ} {free : ℕ → Bool} {fuel i k : ℕ}

/-- A frame in use is not a free one. -/
theorem Machine.ne_of_free (hf : s.free f = false) (hg : s.free g = true) : f ≠ g := by
  rintro rfl
  rw [hf] at hg
  cases hg

/-- Taking a frame leaves those in use. -/
theorem update_used (hf : free f = false) (g : ℕ) :
    update free g false f = false := by
  by_cases hfg : f = g
  · subst hfg
    exact update_self _ _ _
  · rwa [update_of_ne hfg]

theorem findFree_eq_some (h : findFree free fuel i = some k) :
    free k = true ∧ k < i + fuel := by
  fun_induction findFree free fuel i with
  | case1 => cases h
  | case2 i fuel hfree =>
    cases h
    exact ⟨hfree, by omega⟩
  | case3 i fuel hfree ih =>
    obtain ⟨hk, hlt⟩ := ih h
    exact ⟨hk, by omega⟩

/-- The frames that the search passed are in use. -/
theorem findFree_least (h : findFree free fuel i = some k) (hi : i ≤ f) (hf : f < k) :
    free f = false := by
  fun_induction findFree free fuel i with
  | case1 => cases h
  | case2 =>
    cases h
    omega
  | case3 i fuel hfree ih =>
    rcases hi.eq_or_lt with rfl | hlt
    · simpa using hfree
    · exact ih h hlt

theorem findFree_eq_none (h : findFree free fuel i = none) (hik : i ≤ k) (hk : k < i + fuel) :
    free k = false := by
  fun_induction findFree free fuel i with
  | case1 => omega
  | case2 => cases h
  | case3 i fuel hfree ih =>
    rcases hik.eq_or_lt with rfl | hlt
    · simpa using hfree
    · exact ih h hlt (by omega)

/-- An allocation takes one free frame out of the bitmap or returns 0; memory and counts
stay. -/
theorem pfaAllocFrame_spec (pl : Platform) (s : Machine) :
    (∃ free, pfaAllocFrame pl s = ({ s with free := free }, 0) ∧
        ∀ f, s.free f = false → free f = false) ∨
      ∃ c, c ≠ 0 ∧ c < pl.bitmapBits ∧ s.free c = true ∧
        pfaAllocFrame pl s = ({ s with free := update s.free c false }, c) := by
  unfold pfaAllocFrame
  cases hfind : findFree s.free pl.bitmapBits 0 with
  | none => exact .inl ⟨s.free, rfl, fun _ h => h⟩
  | some c =>
    obtain ⟨hfree, hlt⟩ := findFree_eq_some hfind
    by_cases hc : c = 0
    · subst hc
      exact .inl ⟨_, rfl, fun f hf => update_used hf 0⟩
    · exact .inr ⟨c, hc, by omega, hfree, rfl⟩

/-- A reference count is only raised by `refcount_inc`. -/
theorem refcountInc_spec (pl : Platform) (s : Machine) (f : ℕ) :
    ∃ refs, (refcountInc pl s f).1 = { s with refs := refs } ∧ (∀ g, s.refs g ≤ refs g) ∧
      (f < pl.maxFrames → min (s.refs f + 1) 0xFFFFFFFF ≤ refs f) := by
  unfold refcountInc
  split_ifs with hmax hfull
  · exact ⟨s.refs, rfl, fun _ => le_rfl, fun hf => by omega⟩
  · exact ⟨s.refs, rfl, fun _ => le_rfl, fun _ => by omega⟩
  · refine ⟨_, rfl, fun g => ?_, fun _ => ?_⟩
    · by_cases hg : g = f
      · subst hg
        simp
      · simp [update_of_ne hg]
    · simp

/-- `refcount_set` changes one count. -/
theorem refcountSet_spec (pl : Platform) (s : Machine) (f count : ℕ) :
    ∃ refs, refcountSet pl s f count = { s with refs := refs } ∧ ∀ g ≠ f, refs g = s.refs g := by
  unfold refcountSet
  split_ifs with hmax
  · exact ⟨s.refs, rfl, fun _ _ => rfl⟩
  · exact ⟨_, rfl, fun g hg => update_of_ne hg _ _⟩

/-- A frame counts as shared if it is tracked and has more than one reference. -/
theorem refcountIsShared_iff :
    refcountIsShared pl s f = true ↔ f < pl.maxFrames ∧ 1 < s.refs f := by
  unfold refcountIsShared
  split_ifs with hmax
  · simp only [false_iff]
    omega
  · simp only [decide_eq_true_eq]
    omega

/-- After the reference of a shared frame is dropped, one is left. -/
theorem refcountDec_of_shared (h : refcountIsShared pl s f = true) :
    refcountDec pl s f =
        ({ s with refs := update s.refs f (s.refs f - 1) }, s.refs f - 1) ∧
      s.refs f - 1 ≠ 0 := by
  obtain ⟨hmax, hrefs⟩ := refcountIsShared_iff.mp h
  unfold refcountDec
  rw [if_neg (by omega), if_neg (by omega)]
  exact ⟨rfl, by omega⟩

end Tomahawk.Memory
