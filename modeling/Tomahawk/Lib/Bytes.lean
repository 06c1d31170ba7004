import Mathlib.Data.UInt

/-!
# Bytes by offset

Memory, blocks and files as functions from an offset to a byte. `slice` reads a
range, `copyIn` is a copy into a range, and `le` and `putLe` read and write little-endian
numbers. `asInt` is a count as the C code returns it.
-/

namespace Tomahawk.Lib

/-- What holds of all 256 bytes. -/
theorem forall_uint8 {p : UInt8 → Prop} (h : ∀ n : Fin 256, p (UInt8.ofFin n)) (b : UInt8) : p b :=
  h b.toFin

/-- A count returned as an `int`. -/
def asInt (n : ℕ) : ℤ := Int.bmod n (2 ^ 32)

variable {n : ℕ}

theorem asInt_of_lt (h : n < 2 ^ 31) : asInt n = n :=
  Int.bmod_eq_of_le (by omega) (by omega)

theorem asInt_toNat (h : n < 2 ^ 31) : (asInt n).toNat = n := by
  rw [asInt_of_lt h]
  rfl

theorem bmod_lt_of_int (n : ℤ) : n.bmod (2 ^ 32) < 2 ^ 31 := by
  have hlt := Int.bmod_lt (x := n) (m := 2 ^ 32) (by decide)
  simpa using hlt

/-- The conversion to `int` does not make a count larger. -/
theorem asInt_toNat_le (n : ℕ) : (asInt n).toNat ≤ n := by
  by_cases hn : n < 2 ^ 31
  · rw [asInt_toNat hn]
  · have hlt : asInt n < 2 ^ 31 := bmod_lt_of_int n
    omega

/-- The byte at each offset. -/
abbrev Bytes := ℕ → UInt8

namespace Bytes

variable {b b' src : Bytes} {off m n from_ : ℕ} {off' k v : ℕ}

/-- The bytes `[off, off + n)`. -/
def slice (b : Bytes) (off n : ℕ) : List UInt8 := (List.range n).map fun k => b (off + k)

/-- `memcpy` of `n` bytes of `src`, from `from_` on, to offset `off`. -/
def copyIn (b : Bytes) (off n : ℕ) (src : Bytes) (from_ : ℕ) : Bytes :=
  fun k => if off ≤ k ∧ k < off + n then src (from_ + (k - off)) else b k

@[simp] theorem slice_length : (b.slice off n).length = n := by simp [slice]

@[simp] theorem slice_zero : b.slice off 0 = [] := rfl

/-- A range is read in two parts. -/
theorem slice_append : b.slice off m ++ b.slice (off + m) n = b.slice off (m + n) := by
  simp [slice, List.range_add, Nat.add_assoc]

theorem take_slice : (b.slice off n).take m = b.slice off (min m n) := by
  simp [slice, ← List.map_take, List.take_range]

theorem drop_slice : (b.slice off n).drop m = b.slice (off + m) (n - m) := by
  refine List.ext_getElem (by simp) fun i _ _ => ?_
  simp [slice, Nat.add_assoc]

theorem slice_congr (h : ∀ k < n, b (off + k) = b' (off' + k)) :
    b.slice off n = b'.slice off' n := by
  apply List.map_congr_left
  intro k hk
  exact h k (List.mem_range.mp hk)

theorem copyIn_of_mem (h : off ≤ k) (h' : k < off + n) :
    b.copyIn off n src from_ k = src (from_ + (k - off)) := if_pos ⟨h, h'⟩

theorem copyIn_of_lt (h : k < off) : b.copyIn off n src from_ k = b k :=
  if_neg fun hk => by omega

theorem copyIn_of_le (h : off + n ≤ k) : b.copyIn off n src from_ k = b k :=
  if_neg fun hk => by omega

@[simp] theorem copyIn_zero : b.copyIn off 0 src from_ = b := by
  funext k
  exact if_neg fun hk => by omega

/-- Two copies to adjacent ranges are one copy. -/
theorem copyIn_copyIn :
    (b.copyIn off m src from_).copyIn (off + m) n src (from_ + m) =
      b.copyIn off (m + n) src from_ := by
  funext k
  by_cases hlow : k < off
  · rw [copyIn_of_lt (by omega), copyIn_of_lt hlow, copyIn_of_lt hlow]
  by_cases hmid : k < off + m
  · rw [copyIn_of_lt hmid, copyIn_of_mem (by omega) hmid, copyIn_of_mem (by omega) (by omega)]
  by_cases hhigh : k < off + m + n
  · rw [copyIn_of_mem (by omega) hhigh, copyIn_of_mem (by omega) (by omega)]
    congr 1
    omega
  · rw [copyIn_of_le (by omega), copyIn_of_le (by omega), copyIn_of_le (by omega)]

/-- A copy behind a range is appended to it. -/
theorem slice_copyIn :
    (b.copyIn off n src from_).slice 0 (off + n) = b.slice 0 off ++ src.slice from_ n := by
  rw [← slice_append, Nat.zero_add]
  congr 1
  · exact slice_congr fun k hk => copyIn_of_lt (by omega)
  · refine slice_congr fun k hk => ?_
    rw [copyIn_of_mem (by omega) (by omega), Nat.add_sub_cancel_left]

/-- The bytes of a list that lies at offset 0. -/
theorem slice_getD {l : List UInt8} (h : n ≤ l.length) :
    slice (fun k => l.getD k 0) 0 n = l.take n := by
  apply List.ext_getElem
  · simpa using h
  · intro k hk hk'
    have hlt : k < l.length := by simp at hk; omega
    simp [slice, hlt]

/-- The little-endian number in the `n` bytes from `off` on. -/
def le (b : Bytes) (off : ℕ) : ℕ → ℕ
  | 0 => 0
  | n + 1 => (b off).toNat + 256 * le b (off + 1) n

/-- Store the low `n` bytes of a number from `off` on. -/
def putLe (b : Bytes) (off n v : ℕ) : Bytes :=
  fun k => if off ≤ k ∧ k < off + n then UInt8.ofNat (v / 256 ^ (k - off)) else b k

theorem le_lt (b : Bytes) (off n : ℕ) : b.le off n < 256 ^ n := by
  induction n generalizing off with
  | zero => simp [le]
  | succ n ih =>
    have hbyte := (b off).toNat_lt
    have hrest := ih (off + 1)
    rw [le, Nat.pow_succ]
    omega

theorem le_congr (h : ∀ k, off ≤ k → k < off + n → b k = b' k) : b.le off n = b'.le off n := by
  induction n generalizing off with
  | zero => rfl
  | succ n ih =>
    rw [le, le, h off le_rfl (by omega), ih fun k hk hk' => h k (by omega) (by omega)]

theorem putLe_of_lt (h : k < off) : b.putLe off n v k = b k :=
  if_neg fun hk => by omega

theorem putLe_of_le (h : off + n ≤ k) : b.putLe off n v k = b k :=
  if_neg fun hk => by omega

/-- A number that was stored is read back. -/
theorem le_putLe (b : Bytes) (off n v : ℕ) : (b.putLe off n v).le off n = v % 256 ^ n := by
  -- The bytes from `k` on are the digits of `v / 256 ^ k`.
  have hdigits : ∀ m k, k + m ≤ n →
      (b.putLe off n v).le (off + k) m = v / 256 ^ k % 256 ^ m := by
    intro m
    induction m with
    | zero =>
      intro k _
      simp [le, Nat.mod_one]
    | succ m ih =>
      intro k hk
      have hbyte : (b.putLe off n v) (off + k) = UInt8.ofNat (v / 256 ^ k) := by
        rw [putLe, if_pos (by omega), Nat.add_sub_cancel_left]
      have hnext : v / 256 ^ (k + 1) = v / 256 ^ k / 256 := by
        rw [Nat.pow_succ, Nat.div_div_eq_div_mul]
      have hmod : v / 256 ^ k % 256 ^ (m + 1) =
          v / 256 ^ k % 256 + 256 * (v / 256 ^ k / 256 % 256 ^ m) := by
        rw [Nat.pow_succ', Nat.mod_mul]
      rw [le, hbyte, Nat.add_assoc, ih (k + 1) (by omega), UInt8.toNat_ofNat', hnext, hmod]
  simpa using hdigits n 0 (by omega)

/-- A number apart from a stored one is unchanged. -/
theorem le_putLe_of_disjoint (h : off' + m ≤ off ∨ off + n ≤ off') :
    (b.putLe off n v).le off' m = b.le off' m := by
  refine le_congr fun k hk hk' => ?_
  rcases h with h | h
  · exact putLe_of_lt (by omega)
  · exact putLe_of_le (by omega)

end Bytes

end Tomahawk.Lib
