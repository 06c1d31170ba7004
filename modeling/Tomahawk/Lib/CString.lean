import Tomahawk.Lib.Bytes
import Mathlib.Data.List.TakeWhile

/-!
# C strings

Strings as the bytes before their terminator, and as they lie in memory. `strEq` is the
loop that compares a string in memory with another one, and `putStr` stores a string with
its terminator.
-/

namespace Tomahawk.Lib

open Function

theorem bne_of_notMem {x : UInt8} {l : List UInt8} (h : x ∉ l) : ∀ c ∈ l, (c != x) = true :=
  fun _ hc => bne_iff_ne.mpr (ne_of_mem_of_not_mem hc h)

/-- A C string: the bytes before its terminator. -/
structure CStr where
  bytes : List UInt8
  noNul : 0 ∉ bytes
  deriving DecidableEq

/-- The string of the first `n` bytes. -/
def CStr.take (s : CStr) (n : ℕ) : CStr :=
  ⟨s.bytes.take n, fun h => s.noNul (List.mem_of_mem_take h)⟩

theorem CStr.length_take (s : CStr) (n : ℕ) : (s.take n).bytes.length ≤ n :=
  List.length_take_le _ _

/-- The rest of the string from the first byte that fails a test. -/
def CStr.dropWhile (s : CStr) (p : UInt8 → Bool) : CStr :=
  ⟨s.bytes.dropWhile p, fun h => s.noNul ((List.dropWhile_sublist p).mem h)⟩

/-- The string in a buffer: the bytes up to the first zero. -/
def CStr.ofBytes (l : List UInt8) : CStr where
  bytes := l.takeWhile (· != 0)
  noNul h := by simpa using List.mem_takeWhile_imp h

/-- A string is read back from a buffer. -/
theorem CStr.ofBytes_bytes (s : CStr) : CStr.ofBytes s.bytes = s := by
  obtain ⟨bytes, hnul⟩ := s
  have hall : bytes.takeWhile (· != 0) = bytes :=
    List.takeWhile_eq_self_iff.mpr (bne_of_notMem hnul)
  simp only [CStr.ofBytes, hall]

/-- The empty string. -/
def CStr.empty : CStr := ⟨[], by simp⟩

/-- What a loop stores that copies the string while the index is below `limit`, and then the
terminator. -/
def CStr.stored (s : CStr) (limit : ℤ) : List UInt8 := s.bytes.take limit.toNat ++ [0]

theorem CStr.length_stored (s : CStr) (limit : ℤ) :
    (s.stored limit).length = min limit.toNat s.bytes.length + 1 := by
  simp [CStr.stored]

namespace Bytes

variable {b b' : Bytes} {off : ℕ} {l l' : List UInt8} {k : ℕ}

/-- Compare the string at `off` with another one, byte by byte up to the first terminator. -/
def strEq (b : Bytes) (off : ℕ) : List UInt8 → Bool
  | [] => b off == 0
  | c :: cs => if b off = 0 then false else if b off ≠ c then false else strEq b (off + 1) cs

/-- Store the bytes of a string and its terminator. -/
def putStr (b : Bytes) (off : ℕ) : List UInt8 → Bytes
  | [] => update b off 0
  | c :: cs => putStr (update b off c) (off + 1) cs

/-- At most one string is at an offset. -/
theorem strEq_unique (h : b.strEq off l = true) (h' : b.strEq off l' = true) : l = l' := by
  induction l generalizing off l' with
  | nil =>
    cases l' with
    | nil => rfl
    | cons c' cs' => simp_all [strEq]
  | cons c cs ih =>
    cases l' with
    | nil => simp_all [strEq]
    | cons c' cs' =>
      simp only [strEq, Bool.if_false_left, Bool.and_eq_true, Bool.not_eq_true',
        decide_eq_false_iff_not, not_not] at h h'
      rw [← h.2.1, ← h'.2.1, ih h.2.2 h'.2.2]

theorem strEq_congr (h : ∀ k, off ≤ k → k ≤ off + l.length → b k = b' k) :
    b.strEq off l = b'.strEq off l := by
  induction l generalizing off with
  | nil => simp [strEq, h off le_rfl (by simp)]
  | cons c cs ih =>
    rw [List.length_cons] at h
    rw [strEq, strEq, h off le_rfl (by omega), ih fun k hk hk' => h k (by omega) (by omega)]

theorem putStr_of_lt (h : k < off) : b.putStr off l k = b k := by
  induction l generalizing b off with
  | nil => exact update_of_ne (by omega) _ _
  | cons c cs ih => rw [putStr, ih (by omega), update_of_ne (by omega)]

theorem putStr_of_gt (h : off + l.length < k) : b.putStr off l k = b k := by
  induction l generalizing b off with
  | nil => exact update_of_ne (by simp at h; omega) _ _
  | cons c cs ih =>
    rw [List.length_cons] at h
    rw [putStr, ih (by omega), update_of_ne (by omega)]

/-- A string that was stored is found there. -/
theorem strEq_putStr (hl : 0 ∉ l) : (b.putStr off l).strEq off l = true := by
  induction l generalizing b off with
  | nil => simp [strEq, putStr]
  | cons c cs ih =>
    have hc : c ≠ 0 := fun h => hl (by simp [h])
    have hcs : 0 ∉ cs := fun h => hl (.tail _ h)
    have hbyte : (b.putStr off (c :: cs)) off = c := by
      rw [putStr, putStr_of_lt (by omega), update_self]
    rw [strEq, hbyte, if_neg hc, if_neg (by simp), putStr]
    exact ih hcs

end Bytes

end Tomahawk.Lib
