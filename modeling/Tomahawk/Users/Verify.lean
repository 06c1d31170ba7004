import Tomahawk.Users.PasswordStore
import Tomahawk.Lib.Run

/-!
# Password verification

What `password_store_verify` accepts after any sequence of additions, password changes and
deletions. `last` records the password that was set last for each name. Names are cut to 31
bytes when they are stored but not when they are looked up, and a password counts up to its
255th byte.
-/

namespace Tomahawk.Users

open Function Tomahawk.Lib

/-- The calls that change the accounts. -/
inductive AccountOp where
  | add (username password : CStr)
  | changePassword (uid : ℤ) (oldPassword newPassword : CStr)
  | delete (uid : ℤ)

/-- The store, with the password that was set last for each name. -/
structure Accounts where
  store : PasswordStore
  last : CStr → Option CStr

/-- The name of the account with a uid. -/
def PasswordStore.nameOf (st : PasswordStore) (uid : ℤ) : CStr :=
  match usedUid st uid with
  | some i => (st.userDb i).username
  | none => .empty

/-- A call at a time of the tick counter. A call that fails sets nothing. -/
def accountStep (sha256 : List UInt8 → Hash) (w : Accounts) (op : UInt64 × AccountOp) :
    Accounts :=
  match op.2 with
  | .add username password =>
    let r := passwordStoreAdd sha256 op.1 w.store (some username) (some password)
    ⟨r.1, if r.2 = 0 then update w.last username (some password) else w.last⟩
  | .changePassword uid oldPassword newPassword =>
    let r := passwordStoreChangePassword sha256 op.1 w.store uid (some oldPassword)
      (some newPassword)
    ⟨r.1, if r.2 = 0 then update w.last (w.store.nameOf uid) (some newPassword)
      else w.last⟩
  | .delete uid =>
    let r := passwordStoreDelete sha256 op.1 w.store uid
    ⟨r.1, if r.2 = 0 then update w.last (w.store.nameOf uid) none else w.last⟩

/-- The store before `password_store_init`. -/
def emptyStore : PasswordStore where
  userDb := fun _ => ⟨.empty, Vector.replicate 8 0, Vector.replicate 32 0, false, false⟩
  userCount := 0
  initialized := false

/-- After `password_store_init` there is the default account. -/
def Accounts.init (sha256 : List UInt8 → Hash) (ticks : UInt64) : Accounts where
  store := passwordStoreInit sha256 ticks emptyStore
  last := fun username => if username = adminName then some adminPass else none

/-- Names fit in an entry, and passwords are below the length at which the rest is ignored. -/
def AccountOp.Short : AccountOp → Prop
  | .add username password => username.bytes.length < maxUsernameLen ∧ password.bytes.length < 255
  | .changePassword _ _ newPassword => newPassword.bytes.length < 255
  | .delete _ => True

instance : (op : AccountOp) → Decidable op.Short
  | .add _ _ => instDecidableAnd
  | .changePassword _ _ newPassword => inferInstanceAs (Decidable (newPassword.bytes.length < 255))
  | .delete _ => isTrue trivial

/-- The calls after which verification works. -/
def AccountMeets (_ : Accounts) (op : UInt64 × AccountOp) : Prop := op.2.Short

instance (w : Accounts) (op : UInt64 × AccountOp) : Decidable (AccountMeets w op) :=
  inferInstanceAs (Decidable op.2.Short)

/-- The hash does not confuse the two passwords, whatever the salt. -/
def NoCollision (sha256 : List UInt8 → Hash) (p q : CStr) : Prop :=
  ∀ salt, computeSaltedHash sha256 p salt = computeSaltedHash sha256 q salt →
    p.bytes.take 255 = q.bytes.take 255

/-- The used entries have different names and the hash of the password set last. -/
structure AccountsOk (sha256 : List UInt8 → Hash) (w : Accounts) : Prop where
  initialized : w.store.initialized = true
  unique : ∀ i j, (w.store.userDb i).used = true → (w.store.userDb j).used = true →
    (w.store.userDb i).username = (w.store.userDb j).username → i = j
  known : ∀ i, (w.store.userDb i).used = true → ∃ q, w.last (w.store.userDb i).username = some q ∧
    q.bytes.length < 255 ∧
    (w.store.userDb i).passwordHash = computeSaltedHash sha256 q (w.store.userDb i).salt
  present : ∀ u, w.last u ≠ none →
    ∃ i, (w.store.userDb i).used = true ∧ (w.store.userDb i).username = u

variable {sha256 : List UInt8 → Hash} {w : Accounts} {ticks : UInt64} {st : PasswordStore}
  {i : Fin maxUsers}

/-- A name that is not found belongs to no used entry. -/
theorem findUser_eq_none {username : CStr} (h : findUser st username = none) (i : Fin maxUsers)
    (hused : (st.userDb i).used = true) :
    (st.userDb i).username ≠ username := by
  have hi := firstFin_eq_none.mp h i
  simpa [hused] using hi

theorem CStr.take_eq_self {s : CStr} {n : ℕ} (h : s.bytes.length ≤ n) : s.take n = s := by
  obtain ⟨bytes, hnul⟩ := s
  simp only [CStr.take, List.take_of_length_le h]

/-- A short password equals every password with the same first 255 bytes. -/
theorem eq_of_take_eq {p q : CStr} (hq : q.bytes.length < 255)
    (h : p.bytes.take 255 = q.bytes.take 255) : p = q := by
  obtain ⟨p, hp⟩ := p
  obtain ⟨q, hq'⟩ := q
  have hall : q.take 255 = q := List.take_of_length_le (Nat.le_of_lt hq)
  simp only [hall, CStr.mk.injEq] at h ⊢
  have hlength := congrArg List.length h
  rw [List.length_take] at hlength
  change q.length < 255 at hq
  rw [← h, List.take_of_length_le (by omega)]

/-- The entry with a name, or a free one, was replaced, and the rest stayed. -/
theorem AccountsOk.set (h : AccountsOk sha256 w) (st : PasswordStore) {e : UserEntry}
    {name : CStr} {last : Option CStr} (hst : st.initialized = true)
    (hdb : st.userDb = update w.store.userDb i e)
    (hother : ∀ j ≠ i, (w.store.userDb j).used = true → (w.store.userDb j).username ≠ name)
    (hold : (w.store.userDb i).used = true → (w.store.userDb i).username = name)
    (hnew : e.used = true → e.username = name ∧ ∃ q, last = some q ∧ q.bytes.length < 255 ∧
      e.passwordHash = computeSaltedHash sha256 q e.salt)
    (hlast : last ≠ none → e.used = true) : AccountsOk sha256 ⟨st, update w.last name last⟩ := by
  have hself : st.userDb i = e := by rw [hdb, update_self]
  have hcases : ∀ j, (st.userDb j).used = true → j = i ∧ e.used = true ∨
      st.userDb j = w.store.userDb j ∧ (w.store.userDb j).used = true ∧
        (w.store.userDb j).username ≠ name := by
    intro j hj
    by_cases hji : j = i
    · rw [hji, hself] at hj
      exact .inl ⟨hji, hj⟩
    · have heq : st.userDb j = w.store.userDb j := by rw [hdb, update_of_ne hji]
      rw [heq] at hj
      exact .inr ⟨heq, hj, hother j hji hj⟩
  refine ⟨hst, ?_, fun j hj => ?_, fun u hu => ?_⟩
  · rw [hdb]
    refine UniqueKeys.update UserEntry.used UserEntry.username h.unique i fun he j hji hj => ?_
    rw [(hnew he).1]
    exact hother j hji hj
  · simp only
    rcases hcases j hj with ⟨rfl, he⟩ | ⟨heq, hju, hne⟩
    · rw [hself, (hnew he).1, update_self]
      exact (hnew he).2
    · rw [heq, update_of_ne hne]
      exact h.known j hju
  · simp only at hu ⊢
    by_cases hun : u = name
    · rw [hun, update_self] at hu
      have he := hlast hu
      exact ⟨i, by rw [hself, he], by rw [hself, (hnew he).1, hun]⟩
    · rw [update_of_ne hun] at hu
      obtain ⟨j, hj, hju⟩ := h.present u hu
      have hji : j ≠ i := by
        rintro rfl
        exact hun (hju.symm.trans (hold hj))
      rw [hdb]
      exact ⟨j, by rw [update_of_ne hji, hj], by rw [update_of_ne hji, hju]⟩

/-- One call keeps the accounts. -/
theorem AccountsOk.step (h : AccountsOk sha256 w) (op : UInt64 × AccountOp)
    (hmeets : AccountMeets w op) : AccountsOk sha256 (accountStep sha256 w op) := by
  obtain ⟨ticks, op⟩ := op
  cases op with
  | add username password =>
    obtain ⟨hlength, hpassword⟩ := hmeets
    have htake : username.take (maxUsernameLen - 1) = username := by
      refine CStr.take_eq_self ?_
      omega
    rcases passwordStoreAdd_eq sha256 ticks h.initialized username password with
      heq | ⟨i, hfind, heq⟩ | ⟨i, hfind, hused, heq⟩
    · simpa [accountStep, heq] using h
    · obtain ⟨hi, hname⟩ := findUser_eq_some hfind
      simp only [accountStep, heq, if_true]
      exact h.set (w.store.setEntry i
        ((w.store.userDb i).withPassword sha256 ticks username password)) h.initialized rfl
        (fun j hji hj heq => hji (h.unique j i hj hi (heq.trans hname.symm))) (fun _ => hname)
        (fun _ => ⟨hname, password, rfl, hpassword, rfl⟩) fun _ => hi
    · simp only [accountStep, heq, if_true]
      exact h.set
        { w.store.setEntry i ((w.store.userDb i).added sha256 ticks username password) with
          userCount := w.store.userCount + 1 } h.initialized rfl
        (fun j _ hj => findUser_eq_none hfind j hj) (fun hi => by rw [hused] at hi; cases hi)
        (fun _ => ⟨htake, password, rfl, hpassword, rfl⟩) fun _ => rfl
  | changePassword uid old new =>
    rcases passwordStoreChangePassword_eq sha256 ticks h.initialized uid (some old) (some new) with
      heq | ⟨i, new', hnew, huid, heq⟩
    · simpa [accountStep, heq] using h
    · cases hnew
      obtain ⟨-, hused⟩ := usedUid_eq_some huid
      simp only [accountStep, heq, if_true, PasswordStore.nameOf, huid]
      exact h.set (w.store.setEntry i
        ((w.store.userDb i).withPassword sha256 ticks (w.store.userDb i).username new))
        h.initialized rfl (fun j hji hj heq => hji (h.unique j i hj hused heq)) (fun _ => rfl)
        (fun _ => ⟨rfl, new, rfl, hmeets, rfl⟩) fun _ => hused
  | delete uid =>
    rcases passwordStoreDelete_eq sha256 ticks h.initialized uid with heq | ⟨i, huid, -, heq⟩
    · simpa [accountStep, heq] using h
    · obtain ⟨-, hused⟩ := usedUid_eq_some huid
      simp only [accountStep, heq, if_true, PasswordStore.nameOf, huid]
      exact h.set _ h.initialized rfl (fun j hji hj heq => hji (h.unique j i hj hused heq))
        (fun _ => rfl) (fun hdeleted => nomatch hdeleted) fun hne => absurd rfl hne

theorem accountsOk_init (sha256 : List UInt8 → Hash) (ticks : UInt64) :
    AccountsOk sha256 (Accounts.init sha256 ticks) := by
  have hused : ∀ i, ((Accounts.init sha256 ticks).store.userDb i).used = true → i = 0 := by
    intro i hi
    by_contra hne
    simp [Accounts.init, passwordStoreInit, emptyStore, update_of_ne hne] at hi
  refine ⟨rfl, fun i j hi hj _ => ?_, fun i hi => ?_, fun u hu => ?_⟩
  · rw [hused i hi, hused j hj]
  · obtain rfl := hused i hi
    exact ⟨adminPass, rfl, by decide, rfl⟩
  · simp only [Accounts.init] at hu
    split_ifs at hu with hname
    · exact ⟨0, rfl, hname.symm⟩
    · exact absurd rfl hu

/-- Verification compares with the password set last. -/
theorem AccountsOk.verify_iff (h : AccountsOk sha256 w) (ticks : UInt64) (username password : CStr)
    (hcollision : ∀ q, w.last username = some q → NoCollision sha256 password q) :
    (passwordStoreVerify sha256 ticks w.store (some username) (some password)).2 = 0 ↔
      w.last username = some password := by
  simp only [passwordStoreVerify, passwordStoreInit_of_initialized h.initialized]
  cases hfind : findUser w.store username with
  | none =>
    have hlast : w.last username = none := by
      by_contra hne
      obtain ⟨i, hused, hname⟩ := h.present username hne
      exact findUser_eq_none hfind i hused hname
    simp [hlast]
  | some i =>
    obtain ⟨hused, hname⟩ := findUser_eq_some hfind
    obtain ⟨q, hlast, hlength, hhash⟩ := h.known i hused
    rw [hname] at hlast
    dsimp only
    rw [hlast, Option.some.injEq, hhash]
    constructor
    · intro hverify
      by_contra hne
      refine hne (eq_of_take_eq hlength ?_).symm
      refine hcollision q hlast (w.store.userDb i).salt ?_
      by_contra hdiffers
      simp [hdiffers] at hverify
    · rintro rfl
      simp

/-- Password verification. After every sequence of calls with names and passwords of bounded
length, a name is accepted exactly with the password set for it last, unless the hash confuses
the two, and no name is stored twice. -/
theorem password_verify_iff (sha256 : List UInt8 → Hash) (start : UInt64)
    (ops : List (UInt64 × AccountOp))
    (hmeets : Guarded (accountStep sha256) AccountMeets (Accounts.init sha256 start) ops) :
    (∀ ticks username password,
      (∀ q, (run (accountStep sha256) (Accounts.init sha256 start) ops).last username = some q →
        NoCollision sha256 password q) →
      ((passwordStoreVerify sha256 ticks
          (run (accountStep sha256) (Accounts.init sha256 start) ops).store
          (some username) (some password)).2 = 0 ↔
        (run (accountStep sha256) (Accounts.init sha256 start) ops).last username =
          some password)) ∧
      ∀ i j,
        ((run (accountStep sha256) (Accounts.init sha256 start) ops).store.userDb i).used = true →
        ((run (accountStep sha256) (Accounts.init sha256 start) ops).store.userDb j).used = true →
        ((run (accountStep sha256) (Accounts.init sha256 start) ops).store.userDb i).username =
          ((run (accountStep sha256) (Accounts.init sha256 start) ops).store.userDb j).username →
        i = j := by
  have hok : AccountsOk sha256 (run (accountStep sha256) (Accounts.init sha256 start) ops) :=
    run_invariant (fun _ op h => h.step op) (accountsOk_init sha256 start) hmeets
  exact ⟨fun ticks username password => hok.verify_iff ticks username password, hok.unique⟩

theorem noNul_letters (n : ℕ) : 0 ∉ List.replicate n (97 : UInt8) := by simp [List.mem_replicate]

/-- A string of `n` letters `a`. -/
def letters (n : ℕ) : CStr := ⟨List.replicate n 97, noNul_letters n⟩

/-- An account is added, its password is changed, and another account is added and deleted. -/
def someCalls : List (UInt64 × AccountOp) :=
  [(1, .add (letters 3) (letters 2)), (2, .add (letters 4) (letters 2)),
    (3, .changePassword 1 (letters 2) (letters 5)), (4, .delete 2)]

/-- A function on inputs in place of the hash, for short passwords without collisions. -/
def firstBytes (input : List UInt8) : Hash := Vector.ofFn fun i => (input.drop 8).getD i.val 0

theorem password_verify_iff_someCalls :
    (passwordStoreVerify firstBytes 9
        (run (accountStep firstBytes) (Accounts.init firstBytes 0) someCalls).store
        (some (letters 3)) (some (letters 5))).2 = 0 := by
  have hlast : (run (accountStep firstBytes) (Accounts.init firstBytes 0) someCalls).last
      (letters 3) = some (letters 5) := by decide
  refine ((password_verify_iff firstBytes 0 someCalls (by decide)).1 9 (letters 3) (letters 5)
    fun q hq salt _ => ?_).mpr hlast
  rw [hlast] at hq
  rw [Option.some.inj hq]

/-- The accounts after two calls that add an account with a name of 32 bytes. -/
def longNameTwice : Accounts :=
  run (accountStep firstBytes) (Accounts.init firstBytes 0)
    [(1, .add (letters 32) (letters 1)), (2, .add (letters 32) (letters 1))]

/-- The accounts after one was added with a password of 256 bytes. -/
def longPassword : Accounts :=
  run (accountStep firstBytes) (Accounts.init firstBytes 0) [(1, .add (letters 3) (letters 256))]

/-- An account with a name of 32 bytes is not found again and is stored twice, and a password of
256 bytes is accepted without its last byte. No collision of the hash is involved. -/
theorem password_verify_truncates :
    (NoCollision firstBytes (letters 1) (letters 1) ∧
      longNameTwice.last (letters 32) = some (letters 1) ∧
      (passwordStoreVerify firstBytes 3 longNameTwice.store (some (letters 32))
        (some (letters 1))).2 = -1 ∧
      (longNameTwice.store.userDb 1).used = true ∧ (longNameTwice.store.userDb 2).used = true ∧
      (longNameTwice.store.userDb 1).username = (longNameTwice.store.userDb 2).username) ∧
    NoCollision firstBytes (letters 255) (letters 256) ∧
      longPassword.last (letters 3) = some (letters 256) ∧
      (passwordStoreVerify firstBytes 2 longPassword.store (some (letters 3))
        (some (letters 255))).2 = 0 :=
  ⟨⟨fun _ _ => rfl, by decide +kernel⟩, fun _ _ => by decide +kernel, by decide +kernel⟩

end Tomahawk.Users
