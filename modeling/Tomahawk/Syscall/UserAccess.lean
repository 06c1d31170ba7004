import Mathlib.Data.BitVec

/-!
# Checks on pointers from user mode

`uaccess.h` compares a range with the end of the user half of the address space.
-/

namespace Tomahawk.Syscall

/-- `USER_ADDR_MAX` -/
def userAddrMax : BitVec 64 := 0x0000800000000000

/-- `validate_user_buf`: 0 or `-EFAULT`. The sums are 64-bit ones. -/
def validateUserBuf (ptr len : BitVec 64) : ℤ :=
  if ptr = 0 then -14
  else if userAddrMax ≤ ptr then -14
  else if ptr + len < ptr then -14
  else if userAddrMax < ptr + len then -14
  else 0

/-- A range that is let through begins behind 0 and ends in the user half. -/
theorem validateUserBuf_eq_zero {ptr len : BitVec 64} :
    validateUserBuf ptr len = 0 ↔
      ptr.toNat ≠ 0 ∧ ptr.toNat < 2 ^ 47 ∧ ptr.toNat + len.toNat ≤ 2 ^ 47 := by
  have hmax : userAddrMax.toNat = 2 ^ 47 := by decide
  have hzero : ptr = 0 ↔ ptr.toNat = 0 := BitVec.toNat_inj.symm
  have hptr := ptr.isLt
  have hlen := len.isLt
  simp only [validateUserBuf, BitVec.le_def, BitVec.lt_def, BitVec.toNat_add, hmax, hzero]
  split_ifs <;> simp <;> omega

end Tomahawk.Syscall
