import Tomahawk.Lib.Bytes

/-!
# Hexadecimal text

Bytes as pairs of lower-case hexadecimal digits, and back. The decoder also takes capitals.
-/

namespace Tomahawk.Lib

/-- The character of a digit below sixteen. -/
def hexChar (n : UInt8) : UInt8 := if n < 10 then 48 + n else 87 + n

/-- The value of a hexadecimal character. -/
def hexDigit (c : UInt8) : Option UInt8 :=
  if 48 ≤ c ∧ c ≤ 57 then some (c - 48)
  else if 97 ≤ c ∧ c ≤ 102 then some (c - 97 + 10)
  else if 65 ≤ c ∧ c ≤ 70 then some (c - 65 + 10)
  else none

/-- Two characters for each byte. -/
def hexEncode (l : List UInt8) : List UInt8 :=
  l.flatMap fun b : UInt8 => [hexChar ((b >>> 4) &&& 15), hexChar (b &&& 15)]

/-- The bytes of pairs of characters. -/
def hexDecode : List UInt8 → Option (List UInt8)
  | [] => some []
  | [_] => none
  | hi :: lo :: rest =>
    match hexDigit hi, hexDigit lo, hexDecode rest with
    | some hi, some lo, some bytes => some (((hi <<< 4) ||| lo) :: bytes)
    | _, _, _ => none

/-- The digits of a byte give the byte. -/
theorem hexDigit_hexChar (b : UInt8) :
    ∃ hi lo, hexDigit (hexChar ((b >>> 4) &&& 15)) = some hi ∧
      hexDigit (hexChar (b &&& 15)) = some lo ∧ (hi <<< 4) ||| lo = b := by
  refine ⟨(b >>> 4) &&& 15, b &&& 15, ?_⟩
  revert b
  exact forall_uint8 (by decide +kernel)

/-- Decoding inverts encoding. -/
theorem hexDecode_hexEncode (l : List UInt8) : hexDecode (hexEncode l) = some l := by
  induction l with
  | nil => rfl
  | cons b l ih =>
    obtain ⟨hi, lo, hhi, hlo, hb⟩ := hexDigit_hexChar b
    rw [hexEncode] at ih
    rw [hexEncode, List.flatMap_cons, List.cons_append, List.cons_append, List.nil_append,
      hexDecode, hhi, hlo, ih]
    simp only [hb]

/-- Text that is decoded has two hexadecimal digits for each byte. -/
theorem hexDecode_eq_some {l bytes : List UInt8} (h : hexDecode l = some bytes) :
    l.length = 2 * bytes.length ∧ ∀ c ∈ l, hexDigit c ≠ none := by
  induction l using hexDecode.induct generalizing bytes with
  | case1 =>
    obtain rfl : [] = bytes := Option.some.inj h
    simp
  | case2 => cases h
  | case3 hi lo rest b b' bytes' hrest hlo hhi ih =>
    rw [hexDecode, hhi, hlo, hrest] at h
    cases h
    obtain ⟨hlength, hdigits⟩ := ih hrest
    refine ⟨by simp only [List.length_cons, hlength]; omega, ?_⟩
    simpa [hhi, hlo] using hdigits
  | case4 hi lo rest hnone ih =>
    rw [hexDecode] at h
    split at h
    · next hhi hlo hrest => exact absurd hrest (hnone _ _ _ hhi hlo)
    · cases h

theorem length_hexEncode (l : List UInt8) : (hexEncode l).length = 2 * l.length :=
  (hexDecode_eq_some (hexDecode_hexEncode l)).1

end Tomahawk.Lib
