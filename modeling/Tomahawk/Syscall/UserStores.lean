import Tomahawk.Console.LineEditor
import Tomahawk.Lib.Stores
import Tomahawk.Net.PortIsolation
import Tomahawk.Proc.Pipe
import Tomahawk.Proc.Process
import Tomahawk.Syscall.Descriptors
import Tomahawk.Users.PasswordStore

/-!
# Stores through the pointers of the caller

Ten system calls store results through pointers that the caller passes. They check the range with
`validate_user_buf`, which lets every range of the lower half of the address space through but
those at 0. `SYS_RECVFROM` checks the range of its
argument block alone and stores the datagram through the pointer in the block.
-/

namespace Tomahawk.Syscall

open Tomahawk.Lib Tomahawk.Block Tomahawk.Console Tomahawk.Net Tomahawk.Proc Tomahawk.Users

/-! ## The kernel -/

/-- `MAX_PIPES` -/
abbrev maxPipes : ℕ := 32

/-- `PIPE_VNODE_POOL` -/
def pipeVnodePool : ℕ := 64

/-- The vnode of an open file: the console, a file of one of the file systems, or an end of a
pipe. -/
inductive OpenNode where
  | console
  | stored (n : Node)
  | readEnd (p : Fin maxPipes)
  | writeEnd (p : Fin maxPipes)

/-- What the calls that store for the caller read. `mem` is the memory at the addresses of the
caller, `frames` the number of free frames, and `keys` are the bytes that the keyboard controller
delivers. -/
structure Kernel where
  mem : BitVec 64 → UInt8
  procs : Procs OpenNode
  context : CpuContext
  ram : Ramfs.RamFiles
  volume : Fat32.Volume
  frames : ℕ
  pipes : Fin maxPipes → Pipe
  pipeInUse : Fin maxPipes → Bool
  pipeVnodeNext : ℕ
  net : NetState
  users : PasswordStore
  ticks : UInt64
  shellCurrentUid : ℤ
  cwdPath : CStr
  tty : Tty
  keys : List UInt8

/-- A call: its number and its arguments. -/
structure Call where
  num : BitVec 64
  arg1 : BitVec 64
  arg2 : BitVec 64
  arg3 : BitVec 64

/-- The calls that store through a pointer of the caller. -/
inductive StoreCall where
  | getUsername
  | wait
  | waitpid
  | readline
  | readlineMasked
  | recvfrom
  | recv
  | read
  | pipe
  | getcwd
  deriving DecidableEq

/-- The numbers of these calls. The others only read through the pointers they get, or get none,
or are not known. -/
def storeCall (num : BitVec 64) : Option StoreCall :=
  [(18, .getUsername), (29, .wait), (60, .waitpid), (70, .readline), (71, .readlineMasked),
    (83, .recvfrom), (86, .recv), (101, .read), (105, .pipe), (106, .getcwd)].lookup num

/-! ## The stores -/

/-- A loop that looks at the kernel again and again until it is done. -/
def untilDone (attempt : Kernel → Option (Stores 64)) (looks : List Kernel) : Stores 64 :=
  (looks.findSome? attempt).getD []

/-- `(int)size - 1`. -/
def sizeLessOne (size : BitVec 64) : ℤ := (asInt size.toNat - 1).bmod (2 ^ 32)

/-- The name of a user who is not logged in. -/
def guestName : CStr := ⟨[103, 117, 101, 115, 116], by decide⟩

/-- `SYS_GET_USERNAME` -/
def sysGetUsername (sha256 : List UInt8 → Hash) (k : Kernel) (buf size : BitVec 64) : Stores 64 :=
  if validateUserBuf buf size ≠ 0 then []
  else if k.shellCurrentUid < 0 then storesAt buf (guestName.stored (sizeLessOne size))
  else
    storesAt buf
      (passwordStoreGetUsername sha256 k.ticks k.users k.shellCurrentUid (asInt size.toNat)).2.2

/-- `SYS_GETCWD` -/
def sysGetcwd (k : Kernel) (buf size : BitVec 64) : Stores 64 :=
  if validateUserBuf buf size ≠ 0 then []
  else storesAt buf (k.cwdPath.stored (sizeLessOne size))

/-- One scan of `waitpid_process`, with the store of the status; `none` if it waits. -/
def waitStores (pid options : ℤ) (status : BitVec 64) (k : Kernel) : Option (Stores 64) :=
  match (waitpidProcess k.procs pid options k.context).2 with
  | .waits => none
  | .returned _ none => some []
  | .returned _ (some exitCode) =>
    if status = 0 then some [] else some (storesAt status (leBytes 4 exitCode))

/-- `SYS_WAITPID`. The pointer to the status may be 0. -/
def sysWaitpid (looks : List Kernel) (pid options : ℤ) (status : BitVec 64) : Stores 64 :=
  if status ≠ 0 ∧ validateUserBuf status 4 ≠ 0 then []
  else untilDone (waitStores pid options status) looks

/-- What `tty_readline` stores in a buffer, once a line is there. -/
def readlineStores (buf : BitVec 64) : Option (Tty × ℤ × List UInt8 × List UInt8) → Stores 64
  | none => []
  | some (_, _, stored, _) => storesAt buf stored

/-- `SYS_READLINE` -/
def sysReadline (k : Kernel) (buf len : BitVec 64) : Stores 64 :=
  if validateUserBuf buf len ≠ 0 then []
  else readlineStores buf (ttyReadline k.tty true (asInt len.toNat) k.keys)

/-- `SYS_READLINE_MASKED` -/
def sysReadlineMasked (k : Kernel) (buf len : BitVec 64) : Stores 64 :=
  if validateUserBuf buf len ≠ 0 then []
  else readlineStores buf (ttyReadlineMasked k.tty true (asInt len.toNat) 42 k.keys)

/-- A `sockaddr_in_t` as it lies in memory, with its padding. -/
def sockaddrBytes (a : SockaddrIn) : List UInt8 :=
  leBytes 2 a.sinFamily.toNat ++ leBytes 2 a.sinPort.toNat ++
    [a.sinAddr.b0, a.sinAddr.b1, a.sinAddr.b2, a.sinAddr.b3] ++ List.replicate 8 0

/-- One turn of the loop of `sock_recvfrom` on a socket: the datagram goes to the buffer and its
sender to the address given for it; `none` if it goes on waiting. -/
def recvStores (i : Fin socketMax) (buf : BitVec 64) (maxlen : ℕ) (sender : Option (BitVec 64))
    (k : Kernel) : Option (Stores 64) :=
  let s := k.net.sockets i
  match rxRingPop s.rxRing maxlen with
  | some (_, data, addr) =>
    some (storesAt buf data ++ (sender.elim [] fun p => storesAt p (sockaddrBytes addr)))
  | none =>
    if s.state = .closed ∨ s.state = .free then some [] else if s.nonBlocking then some [] else none

/-- `sock_recvfrom` -/
def sockRecvfromStores (k : Kernel) (later : List Kernel) (fd : ℤ) (buf : BitVec 64) (maxlen : ℕ)
    (sender : Option (BitVec 64)) : Stores 64 :=
  match socketGet k.net fd with
  | none => []
  | some i =>
    if buf = 0 ∨ maxlen = 0 then []
    else if !(k.net.sockets i).state.atLeastBound then []
    else untilDone (recvStores i buf maxlen sender) (k :: later)

/-- The fields `buf` and `len` of the `socket_io_args_t` at an address. -/
def ioArgs (mem : BitVec 64 → UInt8) (io : BitVec 64) : BitVec 64 × ℕ :=
  (BitVec.ofNat 64 (loadLe mem io 8), loadLe mem (io + 8) 2)

/-- `SYS_RECVFROM`. The block of 32 bytes is checked, the buffer it points to is not. -/
def sysRecvfrom (k : Kernel) (later : List Kernel) (fd : ℤ) (io : BitVec 64) : Stores 64 :=
  if io = 0 then []
  else if validateUserBuf io 32 ≠ 0 then []
  else sockRecvfromStores k later fd (ioArgs k.mem io).1 (ioArgs k.mem io).2 (some (io + 10))

/-- `SYS_RECV` -/
def sysRecv (k : Kernel) (later : List Kernel) (fd : ℤ) (buf len : BitVec 64) : Stores 64 :=
  if buf = 0 then []
  else if validateUserBuf buf len ≠ 0 then []
  else sockRecvfromStores k later fd buf (len.toNat % 2 ^ 16) none

/-- `vop_read_at` or `vop_read` of the vnode of an open file. The write end of a pipe has
neither. -/
def vopReadStores (env : Devices) (k : Kernel) (later : List Kernel) (file : File OpenNode)
    (buf len : BitVec 64) : OpenNode → Stores 64
  | .console => readlineStores buf (ttyReadline k.tty true (asInt len.toNat) k.keys)
  | .stored n =>
    let io : Io := ⟨k.ram, k.volume, ⟨some n, file.offset, file.flags, file.refcount⟩⟩
    storesAt buf (sysRead env io ⟨buf, len, fun _ => 0, k.frames⟩).2.2
  | .readEnd p =>
    untilDone (fun k => (pipeVopRead (k.pipes p) len.toNat).2.map (storesAt buf)) (k :: later)
  | .writeEnd _ => []

/-- `SYS_READ` -/
def sysReadFd (env : Devices) (k : Kernel) (later : List Kernel) (fd : ℤ) (buf len : BitVec 64) :
    Stores 64 :=
  match getCurrentProcess k.procs with
  | none => []
  | some cur =>
    match fdGet k.procs.files cur fd with
    | none => []
    | some f =>
      let file := k.procs.files.pool f
      if file.flags &&& 3 = 1 then []
      else
        match file.vnode with
        | none => []
        | some vp =>
          if validateUserBuf buf len ≠ 0 then []
          else vopReadStores env k later file buf len vp

/-- The ring that `pipe_alloc_ring` finds. -/
def freeRing (k : Kernel) : Option (Fin maxPipes) := firstFin fun p => !k.pipeInUse p

/-- The vnodes for the two ends of a new pipe, as far as the pool has them. -/
def pipeEnds (k : Kernel) : Option OpenNode × Option OpenNode :=
  match freeRing k with
  | none => (none, none)
  | some p =>
    (if k.pipeVnodeNext < pipeVnodePool then some (.readEnd p) else none,
      if k.pipeVnodeNext + 1 < pipeVnodePool then some (.writeEnd p) else none)

/-- `SYS_PIPE`: the two descriptors are the first two that are empty. -/
def sysPipe (k : Kernel) (fds : BitVec 64) : Stores 64 :=
  if validateUserBuf fds 8 ≠ 0 then []
  else
    match getCurrentProcess k.procs with
    | none => []
    | some cur =>
      let table := k.procs.files.table cur
      if (pipeCreate k.procs.files cur (pipeEnds k).1 (pipeEnds k).2).2 ≠ 0 then []
      else
        match firstFin fun fd => (table fd).isNone with
        | none => []
        | some rfd =>
          match firstFin fun fd => (table fd).isNone && fd != rfd with
          | none => []
          | some wfd => storesAt fds (leBytes 4 rfd.val ++ leBytes 4 wfd.val)

/-- The bytes that a call stores through the pointers of its caller. A call that waits looks at
the kernel again later. -/
def callerStores (env : Devices) (sha256 : List UInt8 → Hash) (k : Kernel) (later : List Kernel)
    (c : Call) : Stores 64 :=
  match storeCall c.num with
  | none => []
  | some .getUsername => sysGetUsername sha256 k c.arg1 c.arg2
  | some .wait => sysWaitpid (k :: later) (-1) 0 c.arg1
  | some .waitpid => sysWaitpid (k :: later) (asInt c.arg1.toNat) (asInt c.arg3.toNat) c.arg2
  | some .readline => sysReadline k c.arg1 c.arg2
  | some .readlineMasked => sysReadlineMasked k c.arg1 c.arg2
  | some .recvfrom => sysRecvfrom k later (asInt c.arg1.toNat) c.arg2
  | some .recv => sysRecv k later (asInt c.arg1.toNat) c.arg2 c.arg3
  | some .read => sysReadFd env k later (asInt c.arg1.toNat) c.arg2 c.arg3
  | some .pipe => sysPipe k c.arg1
  | some .getcwd => sysGetcwd k c.arg1 c.arg2

end Tomahawk.Syscall
