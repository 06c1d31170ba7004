import Tomahawk.Lib.Path

/-!
# Dotted addresses

`dns_resolve` takes a dotted address as it is. The numbers of an address are accumulated in 32
bits, so a number that is too large can pass the check of its range.
-/

namespace Tomahawk.Net

open Tomahawk.Lib

/-- `'.'` -/
def dot : UInt8 := 46

def isDigit (c : UInt8) : Bool := 48 ≤ c && c ≤ 57

/-- The value that the loop over the digits of a number accumulates in 32 bits. -/
def number32 (l : List UInt8) : ℕ := l.foldl (fun v c => (v * 10 + (c.toNat - 48)) % 2 ^ 32) 0

/-- The loop of `parse_dotted_ip` with `n` numbers to go, and the test behind it. -/
def dottedLoop : ℕ → List UInt8 → Option (List UInt8)
  | 0, s => if s = [] ∨ s.head? = some slash then some [] else none
  | n + 1, s =>
    let d := s.takeWhile isDigit
    let s := s.dropWhile isDigit
    if d = [] ∨ 255 < number32 d then none
    else if n ≠ 0 ∧ s.head? ≠ some dot then none
    else (dottedLoop n (if n = 0 then s else s.tail)).map (UInt8.ofNat (number32 d) :: ·)

/-- `parse_dotted_ip`: the bytes of the address. -/
def parseDottedIp (s : CStr) : Option (List UInt8) := dottedLoop 4 s.bytes

/-- The value of a decimal number. -/
def decimal (l : List UInt8) : ℕ := l.foldl (fun v c => v * 10 + (c.toNat - 48)) 0

/-- Non-empty decimal numbers with single dots between them, and then the end or a slash. -/
def IsDotted : List (List UInt8) → List UInt8 → Prop
  | [], s => s = [] ∨ s.head? = some slash
  | d :: ds, s => d ≠ [] ∧ (∀ c ∈ d, isDigit c = true) ∧
      ∃ t, s = d ++ (if ds.length = 0 then t else dot :: t) ∧ IsDotted ds t

variable {l s : List UInt8} {n : ℕ}

theorem number32_eq (l : List UInt8) : number32 l = decimal l % 2 ^ 32 := by
  induction l using List.reverseRecOn with
  | nil => rfl
  | append_singleton l c ih =>
    rw [number32, decimal, List.foldl_concat, List.foldl_concat, ← number32, ← decimal, ih]
    omega

theorem ofNat_number32 (l : List UInt8) : UInt8.ofNat (number32 l) = UInt8.ofNat (decimal l) := by
  rw [number32_eq, ← UInt8.toNat_inj, UInt8.toNat_ofNat', UInt8.toNat_ofNat']
  omega

/-- A number ends where there is no digit: at the end, a slash or a dot. -/
theorem span_isDigit {ds : List (List UInt8)} (hl : ∀ c ∈ l, isDigit c = true)
    (h : IsDotted ds s) :
    (l ++ if ds.length = 0 then s else dot :: s).takeWhile isDigit = l ∧
      (l ++ if ds.length = 0 then s else dot :: s).dropWhile isDigit =
        if ds.length = 0 then s else dot :: s := by
  rw [List.takeWhile_append_of_pos hl, List.dropWhile_append_of_pos hl]
  cases ds with
  | nil =>
    cases s with
    | nil => simp
    | cons c s =>
      obtain rfl : c = slash := by simpa [IsDotted] using h
      exact ⟨by simp [isDigit, slash], rfl⟩
  | cons d ds => exact ⟨List.append_nil l, rfl⟩

/-- The loop accepts numbers that are at most 255 modulo `2 ^ 32`. -/
theorem dottedLoop_iff : dottedLoop n s = some l ↔ ∃ ds : List (List UInt8),
    ds.length = n ∧ IsDotted ds s ∧ (∀ d ∈ ds, decimal d % 2 ^ 32 ≤ 255) ∧
      l = ds.map fun d => UInt8.ofNat (decimal d) := by
  induction n generalizing s l with
  | zero => simp [dottedLoop, IsDotted, eq_comm]
  | succ n ih =>
    simp only [dottedLoop, Option.ite_none_left_eq_some, Option.map_eq_some_iff, not_or, not_and,
      not_not, not_lt, number32_eq]
    constructor
    · rintro ⟨⟨hne, hrange⟩, hdot, l', hrest, rfl⟩
      obtain ⟨ds, rfl, hds, hranges, rfl⟩ := ih.mp hrest
      refine ⟨s.takeWhile isDigit :: ds, rfl,
        ⟨hne, fun c hc => List.mem_takeWhile_imp hc, _, ?_, hds⟩,
        List.forall_mem_cons.mpr ⟨hrange, hranges⟩, ?_⟩
      · conv_lhs => rw [← List.takeWhile_append_dropWhile (p := isDigit) (l := s)]
        split_ifs with hlast
        · rfl
        · rw [List.cons_head?_tail (hdot hlast)]
      · rw [List.map_cons, ← number32_eq, ofNat_number32]
    · rintro ⟨_ | ⟨d, ds⟩, hlen, hds, hranges, rfl⟩
      · cases hlen
      obtain rfl : ds.length = n := Nat.succ.inj hlen
      obtain ⟨hne, hd, t, rfl, hds⟩ := hds
      obtain ⟨hrange, hranges⟩ := List.forall_mem_cons.mp hranges
      obtain ⟨htake, hdrop⟩ := span_isDigit hd hds
      rw [htake, hdrop]
      refine ⟨⟨hne, hrange⟩, fun hlast => by rw [if_neg hlast]; rfl, _,
        ih.mpr ⟨ds, rfl, ?_, hranges, rfl⟩, ?_⟩
      · split_ifs
        · exact hds
        · exact hds
      · rw [List.map_cons, ← number32_eq, ofNat_number32]

/-- `parse_dotted_ip` accepts exactly the dotted addresses and yields their numbers, if and only if
numbers that are at most 255 modulo `2 ^ 32` are so themselves. -/
theorem parse_dotted_ip_iff (s : CStr) :
    (∀ l, parseDottedIp s = some l ↔ ∃ ds : List (List UInt8), ds.length = 4 ∧
      IsDotted ds s.bytes ∧ (∀ d ∈ ds, decimal d ≤ 255) ∧
        l = ds.map fun d => UInt8.ofNat (decimal d)) ↔
    ((∃ ds : List (List UInt8), ds.length = 4 ∧ IsDotted ds s.bytes ∧
        ∀ d ∈ ds, decimal d % 2 ^ 32 ≤ 255) →
      ∃ ds : List (List UInt8), ds.length = 4 ∧ IsDotted ds s.bytes ∧
        ∀ d ∈ ds, decimal d ≤ 255) := by
  have hiff : ∀ l, parseDottedIp s = some l ↔ _ := fun l => dottedLoop_iff
  constructor
  · rintro hall ⟨ds, hlen, hds, hrange⟩
    obtain ⟨ds', hlen', hds', hrange', -⟩ :=
      (hall _).mp ((hiff _).mpr ⟨ds, hlen, hds, hrange, rfl⟩)
    exact ⟨ds', hlen', hds', hrange'⟩
  · intro hcond l
    have hmod : ∀ {ds : List (List UInt8)}, (∀ d ∈ ds, decimal d ≤ 255) →
        ∀ d ∈ ds, decimal d % 2 ^ 32 ≤ 255 := fun h d hd => (Nat.mod_le _ _).trans (h d hd)
    constructor
    · intro hl
      obtain ⟨ds, hlen, hds, hrange, -⟩ := (hiff l).mp hl
      obtain ⟨ds', hlen', hds', hrange'⟩ := hcond ⟨ds, hlen, hds, hrange⟩
      have hl' := (hiff _).mpr ⟨ds', hlen', hds', hmod hrange', rfl⟩
      exact ⟨ds', hlen', hds', hrange', Option.some.inj (hl.symm.trans hl')⟩
    · rintro ⟨ds, hlen, hds, hrange, rfl⟩
      exact (hiff _).mpr ⟨ds, hlen, hds, hmod hrange, rfl⟩

/-- The string `4294967296.0.0.1` is accepted as `0.0.0.1`. -/
theorem parse_dotted_ip_wraps :
    parseDottedIp ⟨[52, 50, 57, 52, 57, 54, 55, 50, 57, 54, 46, 48, 46, 48, 46, 49], by decide⟩ =
      some [0, 0, 0, 1] ∧ decimal [52, 50, 57, 52, 57, 54, 55, 50, 57, 54] = 2 ^ 32 := by
  decide

end Tomahawk.Net
