import Tomahawk.Lib.Table
import Tomahawk.Lib.CString

/-!
# The user database

`password_store.c` keeps sixty-four user entries with a salted hash each. The
index of an entry is the uid of its account. The hash function is a parameter:
`compute_salted_hash` applies it to the salt followed by at most 255 bytes of the
password. Every operation that changes an entry also rewrites the shadow file,
which is read back only at boot and is not part of this module.
-/

namespace Tomahawk.Users

open Function Tomahawk.Lib

/-- `MAX_USERS`. -/
abbrev maxUsers : ℕ := 64

scoped instance : NeZero maxUsers := ⟨by decide⟩

/-- `MAX_USERNAME_LEN`, with the terminator. -/
def maxUsernameLen : ℕ := 32

/-- `SALT_SIZE` bytes. -/
abbrev Salt := Vector UInt8 8

/-- `SHA256_HASH_SIZE` bytes. -/
abbrev Hash := Vector UInt8 32

/-- `user_entry_t`. -/
structure UserEntry where
  username : CStr
  salt : Salt
  passwordHash : Hash
  used : Bool
  isAdmin : Bool
  deriving DecidableEq

/-- The static variables of `password_store.c`. -/
structure PasswordStore where
  userDb : Fin maxUsers → UserEntry
  userCount : ℤ
  initialized : Bool

/-- Replace one entry. -/
def PasswordStore.setEntry (st : PasswordStore) (i : Fin maxUsers) (e : UserEntry) :
    PasswordStore :=
  { st with userDb := update st.userDb i e }

/-- One step of the generator in `generate_salt`. -/
def saltStep (seed : UInt64) : UInt64 := seed * 6364136223846793005 + 1442695040888963407

/-- The seed of `generate_salt`: the tick counter mixed with the bytes of the name. -/
def saltSeed (ticks : UInt64) (username : CStr) : UInt64 :=
  username.bytes.foldl (fun seed b => seed * 6364136223846793005 + b.toUInt64) ticks

/-- `generate_salt`. -/
def generateSalt (ticks : UInt64) (username : CStr) : Salt :=
  Vector.ofFn fun i => ((saltStep^[i.val + 1] (saltSeed ticks username)) >>> 33).toUInt8

/-- `compute_salted_hash`. -/
def computeSaltedHash (sha256 : List UInt8 → Hash) (password : CStr) (salt : Salt) : Hash :=
  sha256 (salt.toList ++ password.bytes.take 255)

/-- `find_user`: the first used entry with the name. -/
def findUser (st : PasswordStore) (username : CStr) : Option (Fin maxUsers) :=
  firstFin fun i => (st.userDb i).used && decide ((st.userDb i).username = username)

/-- A salt and hash for a new password. -/
def UserEntry.withPassword (sha256 : List UInt8 → Hash) (ticks : UInt64) (e : UserEntry)
    (username password : CStr) : UserEntry :=
  { e with
    salt := generateSalt ticks username
    passwordHash := computeSaltedHash sha256 password (generateSalt ticks username) }

/-- The default account of `password_store_init`, the name `admin`. -/
def adminName : CStr := ⟨[97, 100, 109, 105, 110], by decide⟩

/-- The default password, `1234`. -/
def adminPass : CStr := ⟨[49, 50, 51, 52], by decide⟩

/-- `password_store_init`. -/
def passwordStoreInit (sha256 : List UInt8 → Hash) (ticks : UInt64) (st : PasswordStore) :
    PasswordStore :=
  if st.initialized then st
  else
    let cleared := fun i => { st.userDb i with used := false, username := .empty }
    { userDb := update cleared 0
        { (cleared 0).withPassword sha256 ticks adminName adminPass with
          username := adminName, used := true, isAdmin := true }
      userCount := 1
      initialized := true }

/-- The entry that `password_store_add` makes in an unused slot. -/
def UserEntry.added (sha256 : List UInt8 → Hash) (ticks : UInt64) (e : UserEntry)
    (username password : CStr) : UserEntry :=
  { e.withPassword sha256 ticks username password with
    username := username.take (maxUsernameLen - 1), used := true, isAdmin := false }

/-- `password_store_add`: a new salt and hash for an existing account, or a new
account in the first unused slot. -/
def passwordStoreAdd (sha256 : List UInt8 → Hash) (ticks : UInt64) (st : PasswordStore)
    (username password : Option CStr) : PasswordStore × ℤ :=
  match username, password with
  | some username, some password =>
    let st := passwordStoreInit sha256 ticks st
    match findUser st username with
    | some i =>
      (st.setEntry i ((st.userDb i).withPassword sha256 ticks username password), 0)
    | none =>
      if st.userCount ≥ maxUsers then (st, -1)
      else
        match firstFin fun i => !(st.userDb i).used with
        | some i =>
          ({ st.setEntry i ((st.userDb i).added sha256 ticks username password) with
            userCount := st.userCount + 1 }, 0)
        | none => (st, -1)
  | _, _ => (st, -1)

/-- `password_store_verify`. -/
def passwordStoreVerify (sha256 : List UInt8 → Hash) (ticks : UInt64) (st : PasswordStore)
    (username password : Option CStr) : PasswordStore × ℤ :=
  match username, password with
  | some username, some password =>
    let st := passwordStoreInit sha256 ticks st
    match findUser st username with
    | none => (st, -1)
    | some i =>
      if computeSaltedHash sha256 password (st.userDb i).salt = (st.userDb i).passwordHash
      then (st, 0) else (st, -1)
  | _, _ => (st, -1)

/-- The uids that name a used entry. -/
def usedUid (st : PasswordStore) (uid : ℤ) : Option (Fin maxUsers) :=
  if h : 0 ≤ uid ∧ uid < maxUsers then
    if (st.userDb ⟨uid.toNat, by omega⟩).used then some ⟨uid.toNat, by omega⟩ else none
  else none

/-- The entry that `password_store_delete` leaves. -/
def UserEntry.deleted : UserEntry :=
  ⟨.empty, Vector.replicate 8 0, Vector.replicate 32 0, false, false⟩

/-- `password_store_delete`: uid 0 stays. -/
def passwordStoreDelete (sha256 : List UInt8 → Hash) (ticks : UInt64) (st : PasswordStore)
    (uid : ℤ) : PasswordStore × ℤ :=
  let st := passwordStoreInit sha256 ticks st
  match usedUid st uid with
  | none => (st, -1)
  | some i =>
    if uid = 0 then (st, -1)
    else
      ({ st.setEntry i .deleted with userCount := st.userCount - 1 }, 0)

/-- `password_store_change_password`: the old password is checked first. -/
def passwordStoreChangePassword (sha256 : List UInt8 → Hash) (ticks : UInt64)
    (st : PasswordStore) (uid : ℤ) (oldPassword newPassword : Option CStr) :
    PasswordStore × ℤ :=
  let st := passwordStoreInit sha256 ticks st
  match oldPassword, newPassword, usedUid st uid with
  | some oldPassword, some newPassword, some i =>
    let e := st.userDb i
    if computeSaltedHash sha256 oldPassword e.salt ≠ e.passwordHash then (st, -1)
    else (st.setEntry i (e.withPassword sha256 ticks e.username newPassword), 0)
  | _, _, _ => (st, -1)

/-- `password_store_is_admin`: uid 0 always is. -/
def passwordStoreIsAdmin (sha256 : List UInt8 → Hash) (ticks : UInt64) (st : PasswordStore)
    (uid : ℤ) : PasswordStore × Bool :=
  let st := passwordStoreInit sha256 ticks st
  (st, if uid = 0 then true
    else
      match usedUid st uid with
      | some i => (st.userDb i).isAdmin
      | none => false)

/-- `password_store_set_admin`: uid 0 stays an administrator. -/
def passwordStoreSetAdmin (sha256 : List UInt8 → Hash) (ticks : UInt64) (st : PasswordStore)
    (uid : ℤ) (value : Bool) : PasswordStore × ℤ :=
  let st := passwordStoreInit sha256 ticks st
  match usedUid st uid with
  | none => (st, -1)
  | some i =>
    if uid = 0 then (st, 0)
    else (st.setEntry i { st.userDb i with isAdmin := value }, 0)

/-- `password_store_get_uid`. -/
def passwordStoreGetUid (sha256 : List UInt8 → Hash) (ticks : UInt64) (st : PasswordStore)
    (username : Option CStr) : PasswordStore × ℤ :=
  match username with
  | none => (st, -1)
  | some username =>
    let st := passwordStoreInit sha256 ticks st
    (st, match findUser st username with
      | some i => i.val
      | none => -1)

/-- `password_store_get_username`: the result, and the bytes stored in the buffer. -/
def passwordStoreGetUsername (sha256 : List UInt8 → Hash) (ticks : UInt64) (st : PasswordStore)
    (uid bufSize : ℤ) : PasswordStore × ℤ × List UInt8 :=
  if bufSize ≤ 0 then (st, -1, [])
  else
    let st := passwordStoreInit sha256 ticks st
    match usedUid st uid with
    | none => (st, -1, [0])
    | some i => (st, 0, (st.userDb i).username.stored (bufSize - 1))

section Initialized

variable {sha256 : List UInt8 → Hash} {ticks : UInt64} {st : PasswordStore}

@[simp] theorem PasswordStore.setEntry_userDb (st : PasswordStore) (i : Fin maxUsers)
    (e : UserEntry) : (st.setEntry i e).userDb = update st.userDb i e := rfl

theorem passwordStoreInit_of_initialized (h : st.initialized = true) :
    passwordStoreInit sha256 ticks st = st := by
  simp [passwordStoreInit, h]

variable {i : Fin maxUsers}

/-- The lookup returns a used entry with the name it was asked for. -/
theorem findUser_eq_some {username : CStr} (h : findUser st username = some i) :
    (st.userDb i).used = true ∧ (st.userDb i).username = username := by
  simpa [findUser] using firstFin_spec h

/-- A uid that passes the checks is the index of a used entry. -/
theorem usedUid_eq_some {uid : ℤ} (h : usedUid st uid = some i) :
    uid = i.val ∧ (st.userDb i).used = true := by
  unfold usedUid at h
  split_ifs at h with hrange hused
  cases h
  exact ⟨by simp only; omega, hused⟩

/-- Verifying a password changes nothing. -/
theorem passwordStoreVerify_fst (h : st.initialized = true) (username password : Option CStr) :
    (passwordStoreVerify sha256 ticks st username password).1 = st := by
  fun_cases passwordStoreVerify sha256 ticks st username password
  case case4 => rfl
  all_goals exact passwordStoreInit_of_initialized h

/-- Looking up a uid changes nothing. -/
theorem passwordStoreGetUid_fst (h : st.initialized = true) (username : Option CStr) :
    (passwordStoreGetUid sha256 ticks st username).1 = st := by
  cases username with
  | none => rfl
  | some username => exact passwordStoreInit_of_initialized h

section

variable (sha256 : List UInt8 → Hash) (ticks : UInt64) (h : st.initialized = true)
include h

/-- Adding fails, changes the password of the account it names, or makes an account in a slot
that was unused. -/
theorem passwordStoreAdd_eq (username password : CStr) :
    passwordStoreAdd sha256 ticks st (some username) (some password) = (st, -1) ∨
      (∃ i, findUser st username = some i ∧
        passwordStoreAdd sha256 ticks st (some username) (some password) =
          (st.setEntry i ((st.userDb i).withPassword sha256 ticks username password), 0)) ∨
      ∃ i, findUser st username = none ∧ (st.userDb i).used = false ∧
        passwordStoreAdd sha256 ticks st (some username) (some password) =
          ({ st.setEntry i ((st.userDb i).added sha256 ticks username password) with
            userCount := st.userCount + 1 }, 0) := by
  simp only [passwordStoreAdd, passwordStoreInit_of_initialized h]
  cases hfind : findUser st username with
  | some i => exact .inr (.inl ⟨i, rfl, rfl⟩)
  | none =>
    by_cases hfull : st.userCount ≥ maxUsers
    · exact .inl (by simp only [hfull, if_true])
    cases hslot : firstFin fun i => !(st.userDb i).used with
    | none => exact .inl (by simp only [hfull, if_false])
    | some i =>
      have hused := firstFin_spec hslot
      simp only [hfull, if_false]
      exact .inr (.inr ⟨i, trivial, by simpa using hused, rfl⟩)

/-- Changing a password fails or changes the entry of that uid. -/
theorem passwordStoreChangePassword_eq (uid : ℤ) (old new : Option CStr) :
    passwordStoreChangePassword sha256 ticks st uid old new = (st, -1) ∨
      ∃ i new', new = some new' ∧ usedUid st uid = some i ∧
        passwordStoreChangePassword sha256 ticks st uid old new =
          (st.setEntry i
            ((st.userDb i).withPassword sha256 ticks (st.userDb i).username new'), 0) := by
  fun_cases passwordStoreChangePassword sha256 ticks st uid old new
  case case2 st' old' new' i huid e hmatch =>
    have hst : st' = st := passwordStoreInit_of_initialized h
    rw [hst] at huid
    refine .inr ⟨i, new', rfl, huid, ?_⟩
    simp only [e, hst]
  all_goals exact .inl (Prod.ext (passwordStoreInit_of_initialized h) rfl)

end

/-- Deleting fails or clears the entry of a used uid other than 0. -/
theorem passwordStoreDelete_eq (sha256 : List UInt8 → Hash) (ticks : UInt64)
    (h : st.initialized = true) (uid : ℤ) :
    passwordStoreDelete sha256 ticks st uid = (st, -1) ∨
      ∃ i, usedUid st uid = some i ∧ uid ≠ 0 ∧ passwordStoreDelete sha256 ticks st uid =
        ({ st.setEntry i .deleted with userCount := st.userCount - 1 }, 0) := by
  simp only [passwordStoreDelete, passwordStoreInit_of_initialized h]
  cases huid : usedUid st uid with
  | none => exact .inl rfl
  | some i =>
    by_cases hzero : uid = 0
    · exact .inl (by simp only [hzero, if_true])
    · exact .inr ⟨i, rfl, hzero, by simp only [hzero, if_false]⟩

end Initialized

end Tomahawk.Users
