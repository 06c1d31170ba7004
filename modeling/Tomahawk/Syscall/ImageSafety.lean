import Tomahawk.Syscall.UserStores

/-!
# The kernel image and the pointers of the caller

The kernel image lies from 1 MiB on, in the part of the address space that `validate_user_buf`
lets through. The calls keep to the buffers they are given, and a buffer can be filled, so a call
spares the image exactly if the buffers that it is given are outside of it.
-/

namespace Tomahawk.Syscall

open Tomahawk.Lib Tomahawk.Block Tomahawk.Console Tomahawk.Net Tomahawk.Proc Tomahawk.Users

/-- The addresses of the kernel image: `KERNEL_PHYS_START` is 1 MiB. -/
def InImage (kernelEnd a : BitVec 64) : Prop := 0x100000 ≤ a ∧ a < kernelEnd

instance (kernelEnd : BitVec 64) : DecidablePred (InImage kernelEnd) := fun a =>
  inferInstanceAs (Decidable (0x100000 ≤ a ∧ a < kernelEnd))

/-- The greatest length of a file. -/
def fileSizeMax : ℕ := 0xFFFFFFFF

/-- What the types of the kernel say about its data: the lengths of its arrays, and 32-bit
lengths and offsets of files. -/
structure Kernel.Sized (k : Kernel) : Prop where
  cwdPath : k.cwdPath.bytes.length ≤ 255
  usernames : ∀ i, (k.users.userDb i).username.bytes.length < maxUsernameLen
  datagrams : ∀ i j, ((k.net.sockets i).rxRing.entries j).data.length ≤ socketRxBufSize
  inodes : ∀ f, (k.ram.inodes f).iSize ≤ fileSizeMax
  vnodes : ∀ f vp, (k.procs.files.pool f).vnode = some (.stored (.fat32 vp)) →
    vp.fileSize ≤ fileSizeMax
  offsets : ∀ f, (k.procs.files.pool f).offset < 2 ^ 32

/-- The most that `SYS_GET_USERNAME` stores: a name of 31 bytes, or the name of the guest if the
size is not positive as an `int`. -/
def usernameReach (size : BitVec 64) : ℕ :=
  min (if 0 < asInt size.toNat then 31 else 5) (sizeLessOne size).toNat + 1

/-- The buffer of a status, if there is one. -/
def statusBuffer (status : BitVec 64) : List (BitVec 64 × ℕ) :=
  if status = 0 ∨ validateUserBuf status 4 ≠ 0 then [] else [(status, 4)]

/-- The buffer for a datagram, if the descriptor can be that of a socket. -/
def datagramBuffer (fd : ℤ) (buf : BitVec 64) (maxlen : ℕ) : List (BitVec 64 × ℕ) :=
  if socketIndex fd = none ∨ buf = 0 ∨ maxlen = 0 then [] else [(buf, min maxlen socketRxBufSize)]

/-- The buffers that a call stores in, each with the most that it stores there, from its arguments
and the argument block in the memory of the caller. -/
def callerBuffers (mem : BitVec 64 → UInt8) (c : Call) : List (BitVec 64 × ℕ) :=
  match storeCall c.num with
  | none => []
  | some .getUsername =>
    if validateUserBuf c.arg1 c.arg2 ≠ 0 then [] else [(c.arg1, usernameReach c.arg2)]
  | some .wait => statusBuffer c.arg1
  | some .waitpid => statusBuffer c.arg2
  | some .readline | some .readlineMasked =>
    if validateUserBuf c.arg1 c.arg2 ≠ 0 then []
    else [(c.arg1, readlineReach (asInt c.arg2.toNat))]
  | some .recvfrom =>
    if c.arg2 = 0 ∨ validateUserBuf c.arg2 32 ≠ 0 then []
    else
      match datagramBuffer (asInt c.arg1.toNat) (ioArgs mem c.arg2).1 (ioArgs mem c.arg2).2 with
      | [] => []
      | data => (c.arg2 + 10, 16) :: data
  | some .recv =>
    if c.arg2 = 0 ∨ validateUserBuf c.arg2 c.arg3 ≠ 0 then []
    else datagramBuffer (asInt c.arg1.toNat) c.arg2 (c.arg3.toNat % 2 ^ 16)
  | some .read =>
    if asInt c.arg1.toNat < 0 ∨ 32 ≤ asInt c.arg1.toNat ∨ validateUserBuf c.arg2 c.arg3 ≠ 0 then []
    else [(c.arg2, min c.arg3.toNat fileSizeMax)]
  | some .pipe => if validateUserBuf c.arg1 8 ≠ 0 then [] else [(c.arg1, 8)]
  | some .getcwd =>
    if validateUserBuf c.arg1 c.arg2 ≠ 0 then []
    else [(c.arg1, min 255 (sizeLessOne c.arg2).toNat + 1)]

/-- The buffers of a call are outside of the kernel image. -/
def BuffersOutside (kernelEnd : BitVec 64) (mem : BitVec 64 → UInt8) (c : Call) : Prop :=
  ∀ b ∈ callerBuffers mem c, Avoids (InImage kernelEnd) b.1 b.2

variable {env : Devices} {sha256 : List UInt8 → Hash} {k : Kernel} {later looks : List Kernel}
  {S : BitVec 64 → Prop} {buf len size : BitVec 64} {fd : ℤ} {attempt : Kernel → Option (Stores 64)}
  {maxlen n : ℕ} {status : ℤ} {stores : Stores 64}

/-! ## Every call keeps to its buffers -/

/-- A loop spares what each of its turns spares. -/
theorem spares_untilDone (h : ∀ k ∈ looks, ∀ stores, attempt k = some stores → Spares S stores) :
    Spares S (untilDone attempt looks) := by
  unfold untilDone
  cases hfind : looks.findSome? attempt with
  | none => exact .nil
  | some stores =>
    obtain ⟨k, hmem, hk⟩ := List.exists_of_findSome?_eq_some hfind
    exact h k hmem stores hk

theorem sizeLessOne_of_pos (h : 0 < asInt size.toNat) :
    sizeLessOne size = asInt size.toNat - 1 := by
  have hlt : asInt size.toNat < 2 ^ 31 := bmod_lt_of_int _
  exact Int.bmod_eq_of_le (by omega) (by omega)

theorem Kernel.Sized.usernames_init (hk : k.Sized) (sha256 : List UInt8 → Hash) (ticks : UInt64)
    (i : Fin maxUsers) :
    ((passwordStoreInit sha256 ticks k.users).userDb i).username.bytes.length < maxUsernameLen := by
  unfold passwordStoreInit
  split_ifs
  · exact hk.usernames i
  · dsimp only
    by_cases hi : i = 0
    · subst hi
      rw [Function.update_self]
      show adminName.bytes.length < maxUsernameLen
      decide
    · rw [Function.update_of_ne hi]
      show CStr.empty.bytes.length < maxUsernameLen
      decide

theorem Kernel.Sized.length_getUsername (hk : k.Sized) (sha256 : List UInt8 → Hash) (uid : ℤ) :
    (passwordStoreGetUsername sha256 k.ticks k.users uid (asInt size.toNat)).2.2.length ≤
      usernameReach size := by
  unfold passwordStoreGetUsername
  split_ifs with hsize
  · exact Nat.zero_le _
  dsimp only
  split
  · exact Nat.le_add_left 1 _
  · next i _ =>
    have hname := hk.usernames_init sha256 k.ticks i
    have hpred := sizeLessOne_of_pos (not_le.mp hsize)
    rw [CStr.length_stored, usernameReach, if_pos (not_le.mp hsize), hpred]
    simp only [maxUsernameLen] at hname
    omega

theorem spares_sysWaitpid {pid options : ℤ} {status : BitVec 64}
    (h : ∀ b ∈ statusBuffer status, Avoids S b.1 b.2) :
    Spares S (sysWaitpid looks pid options status) := by
  unfold sysWaitpid
  split_ifs with hbad
  · exact .nil
  refine spares_untilDone fun k _ stores hk => ?_
  unfold waitStores at hk
  split at hk
  · simp at hk
  · cases hk
    exact .nil
  split_ifs at hk with hzero
  · cases hk
    exact .nil
  · cases hk
    have hbuffer : statusBuffer status = [(status, 4)] :=
      if_neg (not_or.mpr ⟨hzero, fun hinvalid => hbad ⟨hzero, hinvalid⟩⟩)
    rw [hbuffer] at h
    exact (h _ (List.mem_singleton.mpr rfl)).storesAt (by simp)

theorem spares_readline (h : Avoids S buf (readlineReach (asInt len.toNat))) (t : Tty)
    (keys : List UInt8) :
    Spares S (readlineStores buf (ttyReadline t true (asInt len.toNat) keys)) := by
  cases hread : ttyReadline t true (asInt len.toNat) keys with
  | none => exact .nil
  | some r => exact h.storesAt (ttyReadline_stored hread)

/-- The mask changes nothing in the buffer. -/
theorem readlineStores_masked (t : Tty) (maxlen : ℤ) (mask : UInt8) (keys : List UInt8) :
    readlineStores buf (ttyReadlineMasked t true maxlen mask keys) =
      readlineStores buf (ttyReadline { t with echoMask := mask } true maxlen keys) := by
  unfold ttyReadlineMasked
  cases ttyReadline { t with echoMask := mask } true maxlen keys <;> rfl

/-- A datagram in a socket is no longer than the entries of its ring. -/
theorem Kernel.Sized.pop (hk : k.Sized) {i : Fin socketMax} {ring : RxRing} {data : List UInt8}
    {addr : SockaddrIn} (h : rxRingPop (k.net.sockets i).rxRing maxlen = some (ring, data, addr)) :
    data.length ≤ min maxlen socketRxBufSize := by
  unfold rxRingPop at h
  split_ifs at h
  obtain ⟨-, rfl, -⟩ : _ = ring ∧ _ = data ∧ _ = addr := by simpa using h
  have hentry := hk.datagrams i (k.net.sockets i).rxRing.tail
  rw [List.length_take]
  omega

theorem spares_sockRecvfrom {sender : Option (BitVec 64)} (hsized : ∀ k' ∈ k :: later, k'.Sized)
    (hbuf : ∀ b ∈ datagramBuffer fd buf maxlen, Avoids S b.1 b.2)
    (hsender : datagramBuffer fd buf maxlen ≠ [] → ∀ p ∈ sender, Avoids S p 16) :
    Spares S (sockRecvfromStores k later fd buf maxlen sender) := by
  unfold sockRecvfromStores
  split
  · exact .nil
  next i hget =>
  split_ifs with hnone
  · exact .nil
  · exact .nil
  have hindex : socketIndex fd ≠ none := by
    intro hindex
    simp [socketGet, hindex] at hget
  have hbuffer : datagramBuffer fd buf maxlen = [(buf, min maxlen socketRxBufSize)] :=
    if_neg (not_or.mpr ⟨hindex, hnone⟩)
  rw [hbuffer] at hbuf hsender
  refine spares_untilDone fun k' hmem stores hk => ?_
  unfold recvStores at hk
  dsimp only at hk
  split at hk
  · next hpop =>
    cases hk
    refine ((hbuf _ (List.mem_singleton.mpr rfl)).storesAt ((hsized k' hmem).pop hpop)).append ?_
    cases sender with
    | none => exact .nil
    | some p => exact (hsender (List.cons_ne_nil _ _) p rfl).storesAt (by simp [sockaddrBytes])
  · split_ifs at hk
    all_goals
      cases hk
      exact .nil

theorem spares_vopRead {f : Fin 128} (hk : k.Sized)
    (h : Avoids S buf (min len.toNat fileSizeMax)) {vp : OpenNode}
    (hvp : (k.procs.files.pool f).vnode = some vp) :
    Spares S (vopReadStores env k later (k.procs.files.pool f) buf len vp) := by
  cases vp with
  | console =>
    have hline : readlineReach (asInt len.toNat) ≤ min len.toNat fileSizeMax := by
      have hint := asInt_toNat_le len.toNat
      simp only [readlineReach, ttyLineMax, fileSizeMax]
      split_ifs <;> omega
    exact spares_readline (h.mono hline) k.tty k.keys
  | stored n =>
    refine h.storesAt ?_
    refine (length_sysRead rfl (hk.offsets f)).trans ?_
    refine min_le_min_left _ ?_
    cases n with
    | ramfs g => exact hk.inodes g
    | fat32 vp => exact hk.vnodes f vp hvp
  | readEnd p =>
    refine spares_untilDone fun k _ stores hk => ?_
    obtain ⟨data, hdata, rfl⟩ := Option.map_eq_some_iff.mp hk
    have hlen := length_pipeVopRead hdata
    exact h.storesAt (hlen.trans (min_le_min_left _ (by decide)))
  | writeEnd p => exact .nil

theorem spares_sysReadFd (hk : k.Sized)
    (h : 0 ≤ fd → fd < 32 → validateUserBuf buf len = 0 → Avoids S buf (min len.toNat fileSizeMax)) :
    Spares S (sysReadFd env k later fd buf len) := by
  unfold sysReadFd
  split
  · exact .nil
  next cur _ =>
  split
  · exact .nil
  next f hget =>
  have hfd : 0 ≤ fd ∧ fd < 32 := by
    by_contra hout
    rw [fdGet, dif_neg hout] at hget
    exact absurd hget (by simp)
  dsimp only
  split
  · exact .nil
  split
  · exact .nil
  next vp hvp =>
  split
  · exact .nil
  next hvalid => exact spares_vopRead hk (h hfd.1 hfd.2 (not_not.mp hvalid)) hvp

/-- A call that checks the range of its one buffer. -/
theorem spares_checked (h : ∀ b ∈ if status ≠ 0 then [] else [(buf, n)], Avoids S b.1 b.2)
    (hbody : Avoids S buf n → Spares S stores) : Spares S (if status ≠ 0 then [] else stores) := by
  split_ifs at h ⊢
  · exact .nil
  · exact hbody (h (buf, n) (List.mem_singleton.mpr rfl))

/-- A call stores in the buffers that it is given, and nowhere else. -/
theorem spares_callerStores {c : Call} (hsized : ∀ k' ∈ k :: later, k'.Sized)
    (h : ∀ b ∈ callerBuffers k.mem c, Avoids S b.1 b.2) :
    Spares S (callerStores env sha256 k later c) := by
  have hk := hsized k List.mem_cons_self
  unfold callerBuffers at h
  unfold callerStores
  cases hcall : storeCall c.num with
  | none => exact .nil
  | some call =>
    rw [hcall] at h
    cases call with
    | getUsername =>
      refine spares_checked h fun hout => ?_
      split_ifs
      · refine hout.storesAt ?_
        have hguest : guestName.bytes.length = 5 := rfl
        rw [CStr.length_stored, usernameReach]
        split_ifs <;> omega
      · exact hout.storesAt (hk.length_getUsername sha256 _)
    | wait => exact spares_sysWaitpid h
    | waitpid => exact spares_sysWaitpid h
    | readline => exact spares_checked h fun hout => spares_readline hout k.tty k.keys
    | readlineMasked =>
      refine spares_checked h fun hout => ?_
      rw [readlineStores_masked]
      exact spares_readline hout { k.tty with echoMask := 42 } k.keys
    | recvfrom =>
      dsimp only [sysRecvfrom]
      split_ifs with hzero hvalid
      · exact .nil
      · exact .nil
      simp only [hzero, hvalid, or_self, if_false] at h
      -- The address of the sender is stored if and only if a datagram can be.
      refine spares_sockRecvfrom hsized (fun b hb => ?_) fun hsome p hp => ?_
      · generalize datagramBuffer _ _ _ = data at h hb
        cases data with
        | nil => exact absurd hb List.not_mem_nil
        | cons b' rest => exact h b (.tail _ hb)
      · cases hp
        generalize datagramBuffer _ _ _ = data at h hsome
        cases data with
        | nil => exact absurd rfl hsome
        | cons b' rest => exact h _ List.mem_cons_self
    | recv =>
      dsimp only [sysRecv]
      split_ifs with hzero hvalid
      · exact .nil
      · exact .nil
      simp only [hzero, hvalid, or_self, if_false] at h
      exact spares_sockRecvfrom hsized h fun _ p hp => by simp at hp
    | read =>
      refine spares_sysReadFd hk fun hnonneg hlt hvalid => ?_
      have hgood : ¬ (asInt c.arg1.toNat < 0 ∨ 32 ≤ asInt c.arg1.toNat ∨
          validateUserBuf c.arg2 c.arg3 ≠ 0) := by
        rintro (hneg | hge | hbad)
        · omega
        · omega
        · exact hbad hvalid
      simp only [if_neg hgood] at h
      exact h _ (List.mem_singleton.mpr rfl)
    | pipe =>
      refine spares_checked h fun hout => ?_
      split
      · exact .nil
      dsimp only
      split
      · exact .nil
      split
      · exact .nil
      split
      · exact .nil
      · exact hout.storesAt (by simp)
    | getcwd =>
      refine spares_checked h fun hout => hout.storesAt ?_
      have hlen := hk.cwdPath
      rw [CStr.length_stored]
      omega

/-! ## Every buffer can be filled -/

/-- The kernel with the memory of a caller, and with nothing to read. -/
def idleKernel (mem : BitVec 64 → UInt8) : Kernel where
  mem := mem
  procs := .boot
  context := ⟨0, 0, 0, 0, 0, 0, 0, 0⟩
  ram := Ramfs.vfsInit (fun _ _ => 0) fun _ _ _ => 0
  volume := Fat32.emptyVolume
  frames := 8
  pipes := fun _ => ⟨fun _ => 0, ⟨0, pipeBufSize_pos⟩, ⟨0, pipeBufSize_pos⟩, 0, 0⟩
  pipeInUse := fun _ => false
  pipeVnodeNext := 0
  net := bootWorld.net
  users := ⟨fun _ => ⟨.empty, Vector.replicate 8 0, Vector.replicate 32 0, false, false⟩, 0, true⟩
  ticks := 0
  shellCurrentUid := -1
  cwdPath := ⟨[47], by decide⟩
  tty := ttyInit
  keys := []

/-- There is a kernel in which the call fills all the buffers that it is given. -/
def Fillable (env : Devices) (sha256 : List UInt8 → Hash) (mem : BitVec 64 → UInt8) (c : Call) :
    Prop :=
  ∃ k : Kernel, k.Sized ∧ k.mem = mem ∧
    ∀ b ∈ callerBuffers mem c, Fills (callerStores env sha256 k [] c) b.1 b.2

variable {mem : BitVec 64 → UInt8} {c : Call}

/-- The one buffer of a call that checks a range. -/
theorem fills_of_valid (h : ¬ status ≠ 0 → Fills stores buf n) :
    ∀ b ∈ if status ≠ 0 then [] else [(buf, n)], Fills stores b.1 b.2 := by
  intro b hb
  split_ifs at hb with hvalid
  · exact absurd hb List.not_mem_nil
  · obtain rfl := List.mem_singleton.mp hb
    exact h hvalid

/-- A string of letters. -/
def letters (n : ℕ) : CStr := ⟨List.replicate n 97, by
  rw [List.mem_replicate]
  exact fun h => absurd h.2 (by decide)⟩

theorem length_stored_letters (n : ℕ) (limit : ℤ) :
    ((letters n).stored limit).length = min limit.toNat n + 1 := by
  rw [CStr.length_stored, letters, List.length_replicate]

/-- The first address of `kmalloc_region`. -/
def firstPtr : Fin kmallocRegionSize := ⟨0, by decide⟩

/-- The vnode of a file of the greatest length that begins at cluster 2. -/
def longVnode : Fat32.Vnode := ⟨2, fileSizeMax, 0, 0, 0⟩

/-- A process runs that has a child with this pid that has exited, and reads a long file with all
of its descriptors or has none. -/
def busyProcs (pid : ℤ) (reads : Bool) : Procs OpenNode :=
  let s : Procs OpenNode := .boot
  { s with
    sched := { s.sched with current := some firstPtr }
    process := fun _ => some firstPtr
    table := { s.table with
      children := fun _ => some firstPtr
      isZombie := fun _ => true
      pid := fun _ => (pid % 2 ^ 64).toNat }
    files :=
      if reads then ⟨fun _ => ⟨some (.stored (.fat32 longVnode)), 0, 0, 1⟩, fun _ _ => some 0⟩
      else s.files }

/-- A volume with clusters of 512 bytes on which every cluster is followed by cluster 2. -/
def loopVolume : Fat32.Volume where
  geo := ⟨512, 1, 32, 1, 1, 33, 100, 2⟩
  freeCount := 0
  nextFree := 2
  disk := fun k => if k % 4 = 0 then 2 else 0

/-- A socket that has received a datagram of the greatest length. -/
def fullSocket (i : Fin socketMax) : Socket :=
  { freeSocket i with
    state := .bound
    rxRing := ⟨fun _ => ⟨List.replicate socketRxBufSize 0, ⟨0, 0, .zero⟩, true⟩, 0, 0, 1⟩ }

/-- The kernel in which the calls store the most: there is a user with a name of 31 letters, the
path has 255, every socket has received a datagram, and these keys are typed. -/
def busyKernel (mem : BitVec 64 → UInt8) (uid : ℤ) (keys : List UInt8) (pid : ℤ) (reads : Bool) :
    Kernel :=
  { idleKernel mem with
    procs := busyProcs pid reads
    volume := loopVolume
    net := { bootWorld.net with sockets := fullSocket }
    users := ⟨fun _ => ⟨letters 31, Vector.replicate 8 0, Vector.replicate 32 0, true, false⟩, 1, true⟩
    shellCurrentUid := uid
    cwdPath := letters 255
    keys := keys }

/-- What it takes to show that a call can fill its buffers. -/
theorem fillable_of (uid : ℤ) (keys : List UInt8) (pid : ℤ) (reads : Bool)
    (h : ∀ b ∈ callerBuffers mem c,
      Fills (callerStores env sha256 (busyKernel mem uid keys pid reads) [] c) b.1 b.2) :
    Fillable env sha256 mem c := by
  refine ⟨busyKernel mem uid keys pid reads, ?_, rfl, h⟩
  refine
    { cwdPath := List.length_replicate.le
      usernames := fun _ => (by decide : (letters 31).bytes.length < _)
      datagrams := fun _ _ => List.length_replicate.le
      inodes := fun _ => Nat.zero_le _
      vnodes := ?_
      offsets := ?_ }
  · cases reads <;> rintro f vp ⟨⟩
    exact le_rfl
  · cases reads <;> exact fun _ => (by decide : 0 < 2 ^ 32)

theorem fillable_getcwd (hcall : storeCall c.num = some .getcwd) : Fillable env sha256 mem c := by
  refine fillable_of 0 [] 0 false ?_
  simp only [callerBuffers, callerStores, hcall, sysGetcwd]
  refine fills_of_valid fun hvalid => ?_
  rw [if_neg hvalid]
  refine fills_storesAt ?_
  dsimp only [busyKernel]
  rw [length_stored_letters]
  omega

theorem passwordStoreGetUsername_busy {size : ℤ} (ticks : UInt64) (h : 0 < size) :
    (passwordStoreGetUsername sha256 ticks (busyKernel mem 0 [] 0 false).users 0 size).2.2 =
      (letters 31).stored (size - 1) := by
  rw [passwordStoreGetUsername, if_neg (not_le.mpr h)]
  rfl

theorem fillable_getUsername (hcall : storeCall c.num = some .getUsername) :
    Fillable env sha256 mem c := by
  by_cases hpos : 0 < asInt c.arg2.toNat
  · refine fillable_of 0 [] 0 false ?_
    simp only [callerBuffers, callerStores, hcall]
    refine fills_of_valid fun hvalid => ?_
    have hstores : sysGetUsername sha256 (busyKernel mem 0 [] 0 false) c.arg1 c.arg2 =
        storesAt c.arg1 ((letters 31).stored (sizeLessOne c.arg2)) := by
      have huid : (busyKernel mem 0 [] 0 false).shellCurrentUid = 0 := rfl
      rw [sysGetUsername, if_neg hvalid, huid, if_neg (lt_irrefl 0),
        passwordStoreGetUsername_busy _ hpos, sizeLessOne_of_pos hpos]
    rw [hstores]
    refine fills_storesAt ?_
    rw [usernameReach, if_pos hpos, length_stored_letters, min_comm]
  · refine fillable_of (-1) [] 0 false ?_
    simp only [callerBuffers, callerStores, hcall]
    refine fills_of_valid fun hvalid => ?_
    have huid : (busyKernel mem (-1) [] 0 false).shellCurrentUid = -1 := rfl
    rw [sysGetUsername, if_neg hvalid, huid, if_pos (by decide)]
    refine fills_storesAt ?_
    have hguest : guestName.bytes.length = 5 := rfl
    rw [usernameReach, if_neg hpos, CStr.length_stored, hguest, min_comm]

theorem untilDone_cons (h : attempt k = some stores) : untilDone attempt (k :: later) = stores := by
  rw [untilDone, List.findSome?_cons, h]
  rfl

theorem waitpidProcess_busy (pid options : ℤ) (ctx : CpuContext) :
    (waitpidProcess (busyProcs pid false) pid options ctx).2 =
      .returned ((pid % 2 ^ 64).toNat : ℕ) (some 0) := by
  have hnonneg := Int.emod_nonneg pid (show (2 ^ 64 : ℤ) ≠ 0 by decide)
  have hmatch : waitMatches (busyProcs pid false) pid firstPtr = true := by
    have hpid : ((busyProcs pid false).table.pid firstPtr : ℤ) = pid % 2 ^ 64 :=
      Int.toNat_of_nonneg hnonneg
    rw [waitMatches, hpid, beq_self_eq_true, Bool.or_true]
    rfl
  have hfind : walkFindPrev (busyProcs pid false).table.siblingNext
      (waitMatches (busyProcs pid false) pid) kmallocRegionSize none (some firstPtr) =
        some (none, firstPtr) := by
    exact walkFindPrev_head (by decide) hmatch
  simp only [waitpidProcess, show (busyProcs pid false).sched.current = some firstPtr from rfl,
    show (busyProcs pid false).process firstPtr = some firstPtr from rfl,
    show (busyProcs pid false).table.children firstPtr = some firstPtr from rfl, hfind]
  rfl

theorem fills_sysWaitpid (pid options : ℤ) (status : BitVec 64) :
    ∀ b ∈ statusBuffer status,
      Fills (sysWaitpid [busyKernel mem 0 [] pid false] pid options status) b.1 b.2 := by
  intro b hb
  unfold statusBuffer at hb
  split_ifs at hb with hbad
  · exact absurd hb List.not_mem_nil
  obtain rfl := List.mem_singleton.mp hb
  obtain ⟨hzero, hvalid⟩ := not_or.mp hbad
  have hstores : waitStores pid options status (busyKernel mem 0 [] pid false) =
      some (storesAt status (leBytes 4 0)) := by
    have hwait := waitpidProcess_busy pid options (busyKernel mem 0 [] pid false).context
    have hprocs : (busyKernel mem 0 [] pid false).procs = busyProcs pid false := rfl
    simp only [waitStores, hprocs, hwait]
    exact if_neg hzero
  rw [sysWaitpid, if_neg fun h => hvalid h.2, untilDone_cons hstores]
  exact fills_storesAt (by simp)

theorem fills_readline (t : Tty) :
    Fills (readlineStores buf (ttyReadline t true (asInt len.toNat)
      (typed (readlineReach (asInt len.toNat) - 1)))) buf (readlineReach (asInt len.toNat)) := by
  by_cases hlen : 1 < asInt len.toNat
  · obtain ⟨t', n, stored, hread, hstored⟩ := ttyReadline_typed t hlen
    rw [hread]
    exact fills_storesAt hstored.ge
  · have hreach : readlineReach (asInt len.toNat) = 0 := if_pos (not_lt.mp hlen)
    rw [hreach]
    exact fun i hi => absurd hi (Nat.not_lt_zero i)

theorem fillable_readline (hcall : storeCall c.num = some .readline) : Fillable env sha256 mem c := by
  refine fillable_of 0 (typed (readlineReach (asInt c.arg2.toNat) - 1)) 0 false ?_
  simp only [callerBuffers, callerStores, hcall]
  refine fills_of_valid fun hvalid => ?_
  rw [sysReadline, if_neg hvalid]
  exact fills_readline ttyInit

theorem fillable_readlineMasked (hcall : storeCall c.num = some .readlineMasked) :
    Fillable env sha256 mem c := by
  refine fillable_of 0 (typed (readlineReach (asInt c.arg2.toNat) - 1)) 0 false ?_
  simp only [callerBuffers, callerStores, hcall]
  refine fills_of_valid fun hvalid => ?_
  rw [sysReadlineMasked, if_neg hvalid]
  rw [readlineStores_masked]
  exact fills_readline { ttyInit with echoMask := 42 }

theorem sockRecvfromStores_busy (mem : BitVec 64 → UInt8) (sender : Option (BitVec 64))
    (h : datagramBuffer fd buf maxlen ≠ []) :
    datagramBuffer fd buf maxlen = [(buf, min maxlen socketRxBufSize)] ∧
    sockRecvfromStores (busyKernel mem 0 [] 0 false) [] fd buf maxlen sender =
      storesAt buf ((List.replicate socketRxBufSize 0).take maxlen) ++
        sender.elim [] fun p => storesAt p (sockaddrBytes ⟨0, 0, .zero⟩) := by
  unfold datagramBuffer at h ⊢
  split_ifs at h ⊢ with hnone
  · exact absurd rfl h
  obtain ⟨hindex, hbuf⟩ := not_or.mp hnone
  refine ⟨rfl, ?_⟩
  obtain ⟨i, hi⟩ := Option.ne_none_iff_exists'.mp hindex
  have hget : socketGet (busyKernel mem 0 [] 0 false).net fd = some i := by
    rw [socketGet, hi]
    rfl
  unfold sockRecvfromStores
  rw [hget]
  dsimp only
  have hbound : ¬ (!((busyKernel mem 0 [] 0 false).net.sockets i).state.atLeastBound) = true :=
    Bool.false_ne_true
  rw [if_neg hbuf, if_neg hbound]
  exact untilDone_cons rfl

theorem fillable_recv (hcall : storeCall c.num = some .recv) : Fillable env sha256 mem c := by
  refine fillable_of 0 [] 0 false fun b hb => ?_
  simp only [callerBuffers, callerStores, hcall] at hb ⊢
  split_ifs at hb with hbad
  · exact absurd hb List.not_mem_nil
  obtain ⟨hzero, hvalid⟩ := not_or.mp hbad
  obtain ⟨hbuffer, hstores⟩ := sockRecvfromStores_busy mem none (List.ne_nil_of_mem hb)
  rw [hbuffer] at hb
  obtain rfl := List.mem_singleton.mp hb
  rw [sysRecv, if_neg hzero, if_neg hvalid, hstores]
  refine (fills_storesAt ?_).append_left
  rw [List.length_take, List.length_replicate]

theorem fillable_recvfrom (hcall : storeCall c.num = some .recvfrom) :
    Fillable env sha256 mem c := by
  refine fillable_of 0 [] 0 false fun b hb => ?_
  simp only [callerBuffers, callerStores, hcall] at hb ⊢
  split_ifs at hb with hbad
  · exact absurd hb List.not_mem_nil
  obtain ⟨hzero, hvalid⟩ := not_or.mp hbad
  have hsome : datagramBuffer (asInt c.arg1.toNat) (ioArgs mem c.arg2).1 (ioArgs mem c.arg2).2 ≠
      [] := by
    intro hnil
    rw [hnil] at hb
    exact absurd hb List.not_mem_nil
  obtain ⟨hbuffer, hstores⟩ := sockRecvfromStores_busy mem (some (c.arg2 + 10)) hsome
  have hcalls : sysRecvfrom (busyKernel mem 0 [] 0 false) [] (asInt c.arg1.toNat) c.arg2 = _ :=
    (if_neg hzero).trans ((if_neg hvalid).trans hstores)
  rw [hbuffer] at hb
  rw [hcalls]
  rcases List.mem_cons.mp hb with rfl | hb
  · refine Fills.append_right (fills_storesAt ?_)
    simp [sockaddrBytes]
  · obtain rfl := List.mem_singleton.mp hb
    refine (fills_storesAt ?_).append_left
    rw [List.length_take, List.length_replicate]

theorem fatRead_loopVolume (cluster : ℕ) : Fat32.fatRead loopVolume cluster = 2 := by
  have hoff : loopVolume.geo.fatOffset 0 cluster = 4 * (4096 + cluster) := by
    simp only [Fat32.Geometry.fatOffset, loopVolume]
    omega
  have hle : Bytes.le loopVolume.disk (4 * (4096 + cluster)) 4 = 2 := by
    have h0 : (4 * (4096 + cluster)) % 4 = 0 := by omega
    have h2 : (4 * (4096 + cluster) + 1 + 1) % 4 ≠ 0 := by omega
    have h3 : (4 * (4096 + cluster) + 1 + 1 + 1) % 4 ≠ 0 := by omega
    simp [Bytes.le, loopVolume, h0, h2, h3]
  rw [Fat32.fatRead, hoff, hle]
  exact Nat.mod_eq_of_lt (by decide)

/-- A read on this volume never comes to the end of the chain. -/
theorem length_readLoop_loopVolume {fuel off : ℕ} (hfuel : n ≤ fuel) (hoff : off < 512) :
    (Fat32.readLoop loopVolume fuel 2 off n).length = n := by
  induction fuel generalizing off n with
  | zero => simpa [Fat32.readLoop] using (Nat.le_zero.mp hfuel).symm
  | succ fuel ih =>
    have hsize : loopVolume.geo.clusterSize = 512 := rfl
    unfold Fat32.readLoop
    split_ifs with hmore
    · have hrest := @ih (n - min n (loopVolume.geo.clusterSize - off)) 0 (by omega) (by omega)
      simp only [List.length_append, Bytes.slice_length, fatRead_loopVolume, hrest]
      omega
    · have hn : ¬ 0 < n := fun hpos => hmore ⟨hpos, by decide, by decide⟩
      simp only [List.length_nil]
      omega

theorem length_vopReadAt_loopVolume {nbyte : ℕ} (h : nbyte < 2 ^ 64) :
    (Fat32.vopReadAt 8 loopVolume longVnode nbyte 0).2.length = min nbyte fileSizeMax := by
  have hcount : Fat32.readCount fileSizeMax nbyte 0 = min nbyte fileSizeMax :=
    Fat32.readCount_eq (by omega)
  unfold Fat32.vopReadAt
  rw [show longVnode.fileSize = fileSizeMax from rfl, hcount]
  by_cases hzero : min nbyte fileSizeMax = 0
  · rw [if_pos hzero]
    exact hzero.symm
  have hskip : Fat32.skipLinks loopVolume (0 / loopVolume.geo.clusterSize % 2 ^ 32)
      longVnode.startCluster = some 2 := rfl
  rw [if_neg hzero, hskip]
  exact length_readLoop_loopVolume le_rfl (show 0 % loopVolume.geo.clusterSize < 512 by decide)

theorem sysRead_longVnode {ram : Ramfs.RamFiles} (hvalid : ¬ validateUserBuf buf len ≠ 0) :
    (sysRead env ⟨ram, loopVolume, ⟨some (.fat32 longVnode), 0, 0, 1⟩⟩
      ⟨buf, len, fun _ => 0, 8⟩).2.2 =
        (Fat32.vopReadAt 8 loopVolume longVnode len.toNat 0).2 := by
  unfold sysRead
  dsimp only
  rw [if_neg (show ¬ 0 &&& 3 = 1 by decide), if_neg hvalid]
  simp only [vOp]

theorem sysReadFd_reading (hneg : ¬ fd < 0) (hge : ¬ 32 ≤ fd)
    (hvalid : ¬ validateUserBuf buf len ≠ 0) :
    sysReadFd env (busyKernel mem 0 [] 0 true) [] fd buf len =
      storesAt buf (Fat32.vopReadAt 8 loopVolume longVnode len.toNat 0).2 := by
  have hget : fdGet (busyKernel mem 0 [] 0 true).procs.files firstPtr fd = some 0 := by
    rw [fdGet, dif_pos ⟨not_lt.mp hneg, not_le.mp hge⟩]
    rfl
  have hflags : ¬ ((busyKernel mem 0 [] 0 true).procs.files.pool 0).flags &&& 3 = 1 := by
    show ¬ 0 &&& 3 = 1
    decide
  have hvnode : ((busyKernel mem 0 [] 0 true).procs.files.pool 0).vnode =
      some (.stored (.fat32 longVnode)) := rfl
  have hcaller : getCurrentProcess (busyKernel mem 0 [] 0 true).procs = some firstPtr := rfl
  simp only [sysReadFd, hcaller, hget, if_neg hflags, hvnode, if_neg hvalid]
  exact congrArg (storesAt buf) (sysRead_longVnode hvalid)

theorem fillable_read (hcall : storeCall c.num = some .read) : Fillable env sha256 mem c := by
  refine fillable_of 0 [] 0 true fun b hb => ?_
  simp only [callerBuffers, callerStores, hcall] at hb ⊢
  split_ifs at hb with hbad
  · exact absurd hb List.not_mem_nil
  obtain ⟨hneg, hge, hvalid⟩ : ¬ _ ∧ ¬ _ ∧ ¬ _ := by simpa only [not_or] using hbad
  obtain rfl := List.mem_singleton.mp hb
  rw [sysReadFd_reading hneg hge hvalid]
  exact fills_storesAt (length_vopReadAt_loopVolume c.arg3.isLt).ge

theorem fillable_pipe (hcall : storeCall c.num = some .pipe) : Fillable env sha256 mem c := by
  refine fillable_of 0 [] 0 false ?_
  simp only [callerBuffers, callerStores, hcall]
  refine fills_of_valid fun hvalid => ?_
  have hstores : sysPipe (busyKernel mem 0 [] 0 false) c.arg1 =
      storesAt c.arg1 (leBytes 4 0 ++ leBytes 4 1) := by
    rw [sysPipe, if_neg hvalid]
    rfl
  rw [hstores]
  exact fills_storesAt (by simp)

/-- Whatever a call is given, there is a kernel in which it fills its buffers. -/
theorem fillable (env : Devices) (sha256 : List UInt8 → Hash) (mem : BitVec 64 → UInt8) (c : Call) :
    Fillable env sha256 mem c := by
  rcases hcall : storeCall c.num with _ | call
  · refine fillable_of 0 [] 0 false fun b hb => ?_
    simp only [callerBuffers, hcall] at hb
    exact absurd hb List.not_mem_nil
  cases call with
  | getUsername => exact fillable_getUsername hcall
  | wait =>
    refine fillable_of 0 [] (-1) false ?_
    simp only [callerBuffers, callerStores, hcall]
    exact fills_sysWaitpid (-1) 0 c.arg1
  | waitpid =>
    refine fillable_of 0 [] (asInt c.arg1.toNat) false ?_
    simp only [callerBuffers, callerStores, hcall]
    exact fills_sysWaitpid (asInt c.arg1.toNat) (asInt c.arg3.toNat) c.arg2
  | readline => exact fillable_readline hcall
  | readlineMasked => exact fillable_readlineMasked hcall
  | recvfrom => exact fillable_recvfrom hcall
  | recv => exact fillable_recv hcall
  | read => exact fillable_read hcall
  | pipe => exact fillable_pipe hcall
  | getcwd => exact fillable_getcwd hcall

/-! ## The image -/

/-- A call stores nothing in the kernel image, in whatever state the kernel is, if and only if the
buffers that it is given are outside of the image. -/
theorem image_spared_iff (kernelEnd : BitVec 64) (env : Devices) (sha256 : List UInt8 → Hash)
    (mem : BitVec 64 → UInt8) (c : Call) :
    (∀ k later, (∀ k' ∈ k :: later, k'.Sized) → k.mem = mem →
      Spares (InImage kernelEnd) (callerStores env sha256 k later c)) ↔
    BuffersOutside kernelEnd mem c := by
  constructor
  · intro h b hb
    obtain ⟨k, hk, hmem, hfills⟩ := fillable env sha256 mem c
    refine (h k [] ?_ hmem).avoids (hfills b hb)
    intro k' hk'
    obtain rfl := List.mem_singleton.mp hk'
    exact hk
  · rintro h k later hsized rfl
    exact spares_callerStores hsized h

/-- Every socket has received a datagram. -/
def receivedKernel (mem : BitVec 64 → UInt8) : Kernel :=
  { idleKernel mem with net := { bootWorld.net with sockets := fullSocket } }

/-- The argument block at `0x400000` has the address `0x100000` and the length 16. -/
def blockMem (a : BitVec 64) : UInt8 := if a = 0x400002 ∨ a = 0x400008 then 16 else 0

/-- `SYS_GETCWD` stores the path at the start of the image if that is the address it is given, and
`SYS_RECVFROM` a datagram if that is the address in its block. -/
theorem image_overwritten :
    ¬ Spares (InImage 0x200000) (callerStores Ramfs.tenBlocks (fun _ => Vector.replicate 32 0)
        (idleKernel blockMem) [] ⟨106, 0x100000, 64, 0⟩) ∧
      ¬ Spares (InImage 0x200000) (callerStores Ramfs.tenBlocks (fun _ => Vector.replicate 32 0)
        (receivedKernel blockMem) [] ⟨83, 0, 0x400000, 0⟩) := by
  decide +kernel

end Tomahawk.Syscall
