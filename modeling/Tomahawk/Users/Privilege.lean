import Tomahawk.Syscall.ImageSafety

/-!
# System calls and credentials

The system calls that read or change who a process is and who may log in. A
process that is neither root nor an administrator keeps its uid and leaves the other
accounts alone as long as four things do not happen. Logging out makes it a guest, and
a guest may take any uid. `SYS_PASS_STORE` updates whichever account it names. The calls
for administrators look at `shell_current_uid` only, which the last login of any process
has set. And a call that stores through a pointer may store in the kernel image.
-/

namespace Tomahawk.Users

open Function Tomahawk.Lib Tomahawk.Syscall

/-- The error codes the credential calls return, negated. -/
def eperm : ℤ := 1
@[inherit_doc eperm] def enoent : ℤ := 2
@[inherit_doc eperm] def efault : ℤ := 14
@[inherit_doc eperm] def einval : ℤ := 22

/-- `(uint32_t)-1`, the uid of a process that is not logged in. -/
def unsetUid : UInt32 := 0xFFFFFFFF

/-- What the credential calls read and write: the uid in the PCB of the current
process, the variable `shell_current_uid`, and the user database. -/
structure Session where
  uid : UInt32
  shellCurrentUid : ℤ
  store : PasswordStore

/-- The system calls of one process. A string argument is the C string its pointer
designates, or `none` when `validate_user_string` rejects the pointer. -/
inductive SysCall where
  | passVerify (username password : Option CStr)
  | passStore (username password : Option CStr)
  | passExists (username : Option CStr)
  | getuid
  | setuid (arg1 : UInt64)
  | shellExit
  | passGetUid (username : Option CStr)
  | passChange (oldPassword newPassword : Option CStr)
  | passDelete (cmdline : Option CStr)
  | promoteUser (cmdline : Option CStr)
  | demoteUser (cmdline : Option CStr)
  /-- Any other call, which can change them through the pointers it is given only. -/
  | stores (k : Kernel) (later : List Kernel) (c : Call)

/-- The block devices, and what stores make of the uid, of `shell_current_uid` and of the
database, which lie in the kernel image. -/
structure Machine where
  env : Block.Devices
  kernelEnd : BitVec 64
  poke : Session → Stores 64 → Session
  poke_spared : ∀ s stores, Spares (InImage kernelEnd) stores → poke s stores = s

/-- The conversion `(int)arg1`. -/
def toInt (n : UInt32) : ℤ := n.toBitVec.toInt

/-- `skip_to_arg1`: what follows the first word and the spaces after it. -/
def skipToArg1 (cmdline : CStr) : Option CStr :=
  let rest := (cmdline.dropWhile (· != 32)).dropWhile (· == 32)
  if rest.bytes = [] then none else some rest

/-- The head that `SYS_PASS_DELETE`, `SYS_PROMOTE_USER` and `SYS_DEMOTE_USER` share:
only an administrator gets through, and the account named in the command must exist. -/
def adminTarget (sha256 : List UInt8 → Hash) (ticks : UInt64) (s : Session)
    (cmdline : Option CStr) : PasswordStore × Except ℤ ℤ :=
  if s.shellCurrentUid < 0 then (s.store, .error (-eperm))
  else
    let r := passwordStoreIsAdmin sha256 ticks s.store s.shellCurrentUid
    if !r.2 then (r.1, .error (-eperm))
    else
      match cmdline with
      | none => (r.1, .error (-efault))
      | some cmdline =>
        match skipToArg1 cmdline with
        | none => (r.1, .error (-einval))
        | some name =>
          let r := passwordStoreGetUid sha256 ticks r.1 (some name)
          if r.2 < 0 then (r.1, .error (-enoent)) else (r.1, .ok r.2)

/-- `syscall_handler_c` for the current process, with the value of the tick counter
at the call. -/
def syscallHandlerC (m : Machine) (sha256 : List UInt8 → Hash) (s : Session) (ticks : UInt64) :
    SysCall → Session × ℤ
  | .passVerify (some username) (some password) =>
    let r := passwordStoreVerify sha256 ticks s.store (some username) (some password)
    ({ s with store := r.1 }, r.2)
  | .passVerify _ _ => (s, -efault)
  | .passStore (some username) (some password) =>
    let r := passwordStoreAdd sha256 ticks s.store (some username) (some password)
    ({ s with store := r.1 }, r.2)
  | .passStore _ _ => (s, -efault)
  | .passExists (some username) =>
    let r := passwordStoreGetUid sha256 ticks s.store (some username)
    ({ s with store := r.1 }, if r.2 ≥ 0 then 1 else 0)
  | .passExists none => (s, -efault)
  | .getuid => (s, toInt s.uid)
  | .setuid arg1 =>
    if s.uid ≠ 0 ∧ s.uid ≠ unsetUid ∧ arg1.toUInt32 ≠ unsetUid ∧ s.uid ≠ arg1.toUInt32 then
      (s, -eperm)
    else ({ s with uid := arg1.toUInt32, shellCurrentUid := toInt arg1.toUInt32 }, 0)
  | .shellExit => ({ s with shellCurrentUid := -1 }, 0)
  | .passGetUid (some username) =>
    let r := passwordStoreGetUid sha256 ticks s.store (some username)
    ({ s with store := r.1 }, r.2)
  | .passGetUid none => (s, -efault)
  | .passChange oldPassword newPassword =>
    if s.shellCurrentUid < 0 then (s, -eperm)
    else
      match oldPassword, newPassword with
      | some oldPassword, some newPassword =>
        let r := passwordStoreChangePassword sha256 ticks s.store s.shellCurrentUid
          (some oldPassword) (some newPassword)
        ({ s with store := r.1 }, r.2)
      | _, _ => (s, -efault)
  | .passDelete cmdline =>
    match adminTarget sha256 ticks s cmdline with
    | (st, .error e) => ({ s with store := st }, e)
    | (st, .ok uid) =>
      let r := passwordStoreDelete sha256 ticks st uid
      ({ s with store := r.1 }, r.2)
  | .promoteUser cmdline =>
    match adminTarget sha256 ticks s cmdline with
    | (st, .error e) => ({ s with store := st }, e)
    | (st, .ok uid) =>
      if uid = 0 then ({ s with store := st }, 0)
      else ({ s with store := (passwordStoreSetAdmin sha256 ticks st uid true).1 }, 0)
  | .demoteUser cmdline =>
    match adminTarget sha256 ticks s cmdline with
    | (st, .error e) => ({ s with store := st }, e)
    | (st, .ok uid) =>
      if uid = 0 then ({ s with store := st }, -eperm)
      else ({ s with store := (passwordStoreSetAdmin sha256 ticks st uid false).1 }, 0)
  | .stores k later c => (m.poke s (callerStores m.env sha256 k later c), 0)

/-- What happens to a session: a call of the process with the tick count at which it is
made, or a call of another process that sets `shell_current_uid`. -/
inductive Event where
  | call (ticks : UInt64) (call : SysCall)
  | elsewhere (uid : ℤ)

/-- One step of a session. -/
def Session.step (m : Machine) (sha256 : List UInt8 → Hash) (s : Session) : Event → Session
  | .call ticks call => (syscallHandlerC m sha256 s ticks call).1
  | .elsewhere uid => { s with shellCurrentUid := uid }

/-- The process does not log out and stores no password for another account, its buffers
are outside the kernel image, and no other process logs in as another user. -/
def Event.Meets (m : Machine) (s : Session) : Event → Prop
  | .call _ (.setuid arg1) => arg1.toUInt32 ≠ unsetUid
  | .call _ (.passStore (some username) _) =>
    ∀ j, findUser s.store username = some j → toInt s.uid = j.val
  | .call _ (.stores k later c) =>
    (∀ k' ∈ k :: later, k'.Sized) ∧ BuffersOutside m.kernelEnd k.mem c
  | .elsewhere uid => uid = -1 ∨ uid = toInt s.uid
  | _ => True

/-- The account at `j` has the name, salt and hash it had in `s₀`. -/
structure Session.AccountKept (s₀ s : Session) (j : Fin maxUsers) : Prop where
  used : (s.store.userDb j).used = true
  username : (s.store.userDb j).username = (s₀.store.userDb j).username
  salt : (s.store.userDb j).salt = (s₀.store.userDb j).salt
  passwordHash : (s.store.userDb j).passwordHash = (s₀.store.userDb j).passwordHash

/-- What an ordinary process keeps, relative to where it started. -/
structure Session.Confined (s₀ s : Session) : Prop where
  uid : s.uid = s₀.uid
  /-- The legacy variable is unset by a shell exit, and set back only to the own uid. -/
  shell : s.shellCurrentUid = -1 ∨ s.shellCurrentUid = toInt s₀.uid
  notAdmin : ∀ i : Fin maxUsers, toInt s₀.uid = i.val → (s.store.userDb i).used = true →
    (s.store.userDb i).isAdmin = false
  initialized : s.store.initialized = true

theorem toInt_ne_zero {n : UInt32} (h : n ≠ 0) : toInt n ≠ 0 := by
  intro heq
  apply h
  have : n.toBitVec = 0#32 := BitVec.eq_of_toInt_eq (by simpa [toInt] using heq)
  exact UInt32.eq_of_toBitVec_eq this

variable {s₀ s : Session} {sha256 : List UInt8 → Hash} {uid : ℤ} {st : PasswordStore}
  {m : Machine} {event : Event}

/-- The calls reserved to administrators turn an ordinary process away. -/
theorem Session.Confined.adminTarget (h : s₀.Confined s) (hroot : s₀.uid ≠ 0)
    (sha256 : List UInt8 → Hash) (ticks : UInt64) (cmdline : Option CStr) :
    adminTarget sha256 ticks s cmdline = (s.store, .error (-eperm)) := by
  unfold Users.adminTarget
  by_cases hneg : s.shellCurrentUid < 0
  · rw [if_pos hneg]
  have hshell : s.shellCurrentUid = toInt s₀.uid := by
    rcases h.shell with hexit | hshell
    · omega
    · exact hshell
  have hadmin : passwordStoreIsAdmin sha256 ticks s.store s.shellCurrentUid =
      (s.store, false) := by
    simp only [passwordStoreIsAdmin, passwordStoreInit_of_initialized h.initialized, hshell,
      toInt_ne_zero hroot, if_false]
    cases huid : usedUid s.store (toInt s₀.uid) with
    | none => rfl
    | some i =>
      obtain ⟨hi, hused⟩ := usedUid_eq_some huid
      simp [h.notAdmin i hi hused]
  simp [hneg, hadmin]

/-- What a step of an ordinary process does to an entry of the store: it stays, is filled for an
ordinary account, or is the own one and gets a new salt and hash. -/
def StoreStep (uid : ℤ) (st : PasswordStore) (st' : PasswordStore) : Prop :=
  st'.initialized = st.initialized ∧ ∀ i : Fin maxUsers, st'.userDb i = st.userDb i ∨
    (st.userDb i).used = false ∧ (st'.userDb i).isAdmin = false ∨
    (st.userDb i).used = true ∧ (st'.userDb i).isAdmin = (st.userDb i).isAdmin ∧ uid = i.val

theorem storeStep_refl (uid : ℤ) (st : PasswordStore) : StoreStep uid st st :=
  ⟨rfl, fun _ => .inl rfl⟩

theorem storeStep_setEntry {k : Fin maxUsers} {e : UserEntry} {userCount : ℤ}
    (h : (st.userDb k).used = false ∧ e.isAdmin = false ∨
      (st.userDb k).used = true ∧ e.isAdmin = (st.userDb k).isAdmin ∧ uid = k.val) :
    StoreStep uid st { st.setEntry k e with userCount := userCount } := by
  refine ⟨rfl, fun i => ?_⟩
  by_cases hik : i = k
  · subst hik
    exact .inr (by simpa using h)
  · exact .inl (by simp [update_of_ne hik])

section

variable (h : s₀.Confined s) (hroot : s₀.uid ≠ 0) (hset : s₀.uid ≠ unsetUid)
  (hmeets : event.Meets m s)
include h hroot hset hmeets

/-- One step of an ordinary process that meets the condition. -/
theorem Session.Confined.step_cases :
    (s.step m sha256 event).uid = s₀.uid ∧
      ((s.step m sha256 event).shellCurrentUid = -1 ∨
        (s.step m sha256 event).shellCurrentUid = toInt s₀.uid) ∧
      StoreStep (toInt s₀.uid) s.store (s.step m sha256 event).store := by
  -- Most calls leave the session as it is.
  have hsame : ∀ {r : Session × ℤ}, r.1 = s → r.1.uid = s₀.uid ∧
      (r.1.shellCurrentUid = -1 ∨ r.1.shellCurrentUid = toInt s₀.uid) ∧
      StoreStep (toInt s₀.uid) s.store r.1.store := by
    intro r hr
    rw [hr]
    exact ⟨h.uid, h.shell, storeStep_refl _ _⟩
  rcases event with ⟨ticks, call⟩ | uid
  swap
  · refine ⟨h.uid, ?_, storeStep_refl _ _⟩
    rw [← h.uid]
    exact hmeets
  simp only [Session.step]
  cases call with
  | passVerify username password =>
    apply hsame
    rcases username with _ | username <;> rcases password with _ | password
    all_goals simp only [syscallHandlerC, passwordStoreVerify_fst h.initialized]
  | passStore username password =>
    rcases username with _ | username <;> rcases password with _ | password
    all_goals try exact hsame rfl
    simp only [syscallHandlerC]
    refine ⟨h.uid, h.shell, ?_⟩
    rcases passwordStoreAdd_eq sha256 ticks h.initialized username password with
      hst | ⟨i, hfind, hst⟩ | ⟨i, -, hunused, hst⟩
    all_goals rw [hst]
    · exact storeStep_refl _ _
    · have hown : toInt s.uid = i.val := hmeets i hfind
      rw [h.uid] at hown
      exact storeStep_setEntry (.inr ⟨(findUser_eq_some hfind).1, rfl, hown⟩)
    · exact storeStep_setEntry (.inl ⟨hunused, rfl⟩)
  | passExists username =>
    apply hsame
    cases username <;> simp only [syscallHandlerC, passwordStoreGetUid_fst h.initialized]
  | getuid => exact hsame rfl
  | setuid arg1 =>
    simp only [syscallHandlerC]
    by_cases hperm : s.uid ≠ 0 ∧ s.uid ≠ unsetUid ∧ arg1.toUInt32 ≠ unsetUid ∧
        s.uid ≠ arg1.toUInt32
    · rw [if_pos hperm]
      exact hsame rfl
    · -- Neither root, nor a guest, nor a logout: the call asked for the own uid.
      rw [if_neg hperm]
      have harg : arg1.toUInt32 ≠ unsetUid := hmeets
      have hown : arg1.toUInt32 = s₀.uid := by
        by_contra hne
        rw [h.uid] at hperm
        exact hperm ⟨hroot, hset, harg, fun heq => hne heq.symm⟩
      exact ⟨hown, .inr (by rw [hown]), storeStep_refl _ _⟩
  | shellExit => exact ⟨h.uid, .inl rfl, storeStep_refl _ _⟩
  | passGetUid username =>
    apply hsame
    cases username <;> simp only [syscallHandlerC, passwordStoreGetUid_fst h.initialized]
  | passChange old new =>
    simp only [syscallHandlerC]
    by_cases hneg : s.shellCurrentUid < 0
    · rw [if_pos hneg]
      exact hsame rfl
    rw [if_neg hneg]
    rcases old with _ | old <;> rcases new with _ | new
    all_goals try exact hsame rfl
    refine ⟨h.uid, h.shell, ?_⟩
    rcases passwordStoreChangePassword_eq sha256 ticks h.initialized s.shellCurrentUid
      (some old) (some new) with hst | ⟨i, new', -, huid, hst⟩
    all_goals simp only [hst]
    · exact storeStep_refl _ _
    · obtain ⟨huid, hused⟩ := usedUid_eq_some huid
      have hshell : s.shellCurrentUid = toInt s₀.uid := by
        rcases h.shell with hexit | hshell
        · omega
        · exact hshell
      exact storeStep_setEntry (.inr ⟨hused, rfl, hshell ▸ huid⟩)
  | passDelete cmdline => exact hsame (by simp only [syscallHandlerC, h.adminTarget hroot])
  | promoteUser cmdline => exact hsame (by simp only [syscallHandlerC, h.adminTarget hroot])
  | demoteUser cmdline => exact hsame (by simp only [syscallHandlerC, h.adminTarget hroot])
  | stores k later c => exact hsame (m.poke_spared s _ (spares_callerStores hmeets.1 hmeets.2))

/-- An ordinary process stays one. -/
theorem Session.Confined.step : s₀.Confined (s.step m sha256 event) := by
  obtain ⟨huid, hshell, hstore⟩ := h.step_cases hroot hset hmeets
  refine ⟨huid, hshell, ?_, by rw [hstore.1, h.initialized]⟩
  intro i hi hused
  rcases hstore.2 i with hsame | ⟨_, hadmin⟩ | ⟨hwas, hadmin, _⟩
  · rw [hsame] at hused ⊢
    exact h.notAdmin i hi hused
  · exact hadmin
  · rw [hadmin]
    exact h.notAdmin i hi hwas

/-- Another account keeps its password. -/
theorem Session.AccountKept.step {j : Fin maxUsers} (hkept : s₀.AccountKept s j)
    (hj : toInt s₀.uid ≠ j.val) : s₀.AccountKept (s.step m sha256 event) j := by
  obtain ⟨_, _, hstore⟩ := h.step_cases hroot hset hmeets
  have hsame : (s.step m sha256 event).store.userDb j = s.store.userDb j := by
    rcases hstore.2 j with hsame | ⟨hunused, _⟩ | ⟨_, _, hown⟩
    · exact hsame
    · simp [hkept.used] at hunused
    · exact absurd hown hj
  exact ⟨by rw [hsame, hkept.used], by rw [hsame, hkept.username], by rw [hsame, hkept.salt],
    by rw [hsame, hkept.passwordHash]⟩

end

end Tomahawk.Users
