import Tomahawk.Proc.OpenFiles
import Tomahawk.Proc.Scheduler

/-!
# Processes and threads

The processes and threads of `proc.c` with the parts of `scheduler.c` that switch between
them. PCBs and TCBs come from a region that is never given back, so a pointer is an offset
in it. A call runs to its end before the next one starts. A thread that waits in
`waitpid_process` scans its children again when it runs again, which is a further call with
the same arguments.
-/

namespace Tomahawk.Proc

open Function Tomahawk.Lib

/-- `KMALLOC_REGION_SIZE` -/
def kmallocRegionSize : ℕ := 1024 * 1024

/-- `KERNEL_STACK_SIZE` -/
def kernelStackSize : ℕ := 16 * 1024

/-- `sizeof(pcb_t)` -/
def pcbSize : ℕ := 680

/-- `sizeof(tcb_t)` -/
def tcbSize : ℕ := 104

/-- `sizeof(mm_struct)` -/
def mmSize : ℕ := 16

/-- A pointer to a `pcb_t`, as an offset in `kmalloc_region`. -/
abbrev PcbPtr := Fin kmallocRegionSize

/-- A pointer to a `tcb_t`, as an offset in `kmalloc_region`. -/
abbrev TcbPtr := Fin kmallocRegionSize

/-- `process_list` and the fields of the PCBs that tie processes together, with a record of
the calls of `process_reap`. -/
structure ProcTable where
  processList : Option PcbPtr
  pid : PcbPtr → ℕ
  next : PcbPtr → Option PcbPtr
  parent : PcbPtr → Option PcbPtr
  children : PcbPtr → Option PcbPtr
  siblingNext : PcbPtr → Option PcbPtr
  isZombie : PcbPtr → Bool
  reaped : List PcbPtr

/-- The state of `proc.c`, `scheduler.c` and `fd.c`. The address space of a process is there or
not; `process` is the field `parent` of a thread. A record of the threads that were made is
kept. After a kernel panic, or when a thread exits and none is ready, the machine has halted. -/
structure Procs (V : Type*) where
  kmallocPtr : ℕ
  nextPid : ℕ
  table : ProcTable
  mainThread : PcbPtr → Option TcbPtr
  waitQueue : PcbPtr → Option TcbPtr
  mm : PcbPtr → Bool
  isForkChild : PcbPtr → Bool
  exitCode : PcbPtr → ℤ
  process : TcbPtr → Option PcbPtr
  threads : List TcbPtr
  sched : Scheduler TcbPtr
  files : Files kmallocRegionSize V
  halted : Bool

namespace ProcTable

/-- The zeroes that `zalloc` puts into a new PCB. -/
def clear (t : ProcTable) (p : PcbPtr) : ProcTable :=
  { t with
    pid := update t.pid p 0
    next := update t.next p none
    parent := update t.parent p none
    children := update t.children p none
    siblingNext := update t.siblingNext p none
    isZombie := update t.isZombie p false }

/-- The pid and the parent of a new process. -/
def introduce (t : ProcTable) (p : PcbPtr) (pid : ℕ) (parent : Option PcbPtr) : ProcTable :=
  { t with
    pid := update t.pid p pid
    parent := update t.parent p parent }

/-- Put a process in front of the children of another. -/
def pushChild (t : ProcTable) (parent child : PcbPtr) : ProcTable :=
  { t with
    siblingNext := update t.siblingNext child (t.children parent)
    children := update t.children parent (some child) }

/-- `p->children = first` -/
def withChildren (t : ProcTable) (p : PcbPtr) (first : Option PcbPtr) : ProcTable :=
  { t with children := update t.children p first }

/-- Put a process in front of `process_list`. -/
def push (t : ProcTable) (p : PcbPtr) : ProcTable :=
  { t with next := update t.next p t.processList, processList := some p }

/-- `find_process_by_pid` -/
def findProcessByPid (t : ProcTable) (pid : ℕ) : Option PcbPtr :=
  walkFind t.next (fun p => t.pid p == pid) kmallocRegionSize t.processList

/-- `process_list_remove` -/
def processListRemove (t : ProcTable) (target : PcbPtr) : ProcTable :=
  match removeLink t.next kmallocRegionSize t.processList target with
  | some (next, head) =>
    { t with next := update next target none, processList := head }
  | none => t

/-- What `process_reap` does to the lists. -/
def reap (t : ProcTable) (child : PcbPtr) : ProcTable :=
  let t := t.processListRemove child
  { t with
    pid := update t.pid child 0
    isZombie := update t.isZombie child false
    reaped := child :: t.reaped }

/-- A living child of a dying process goes to init, or has no parent any more. -/
def adopt (t : ProcTable) (dying : PcbPtr) (init : Option PcbPtr) (child : PcbPtr) : ProcTable :=
  match init with
  | some i =>
    if i ≠ dying then
      pushChild { t with parent := update t.parent child (some i) } i child
    else
      { t with
        parent := update t.parent child none
        siblingNext := update t.siblingNext child none }
  | none =>
    { t with
      parent := update t.parent child none
      siblingNext := update t.siblingNext child none }

/-- Take a child off the list of its parent, given the sibling before it. -/
def unlinkChild (t : ProcTable) (parent : PcbPtr) (prev : Option PcbPtr) (child : PcbPtr) :
    ProcTable :=
  match prev with
  | some q => { t with siblingNext := update t.siblingNext q (t.siblingNext child) }
  | none => t.withChildren parent (t.siblingNext child)

end ProcTable

section Scheduler

variable {T : Type*} [DecidableEq T]

/-- `scheduler_yield`; `context_switch` stores `ctx` for the thread that calls it. -/
def schedulerYield (s : Scheduler T) (ctx : CpuContext) : Scheduler T :=
  match s.ready.pop with
  | (_, none) => s
  | (ready, some next) =>
    match s.current with
    | none => Scheduler.switchTo { s with ready := ready } next
    | some old =>
      let s := { s with ready := ready, context := update s.context old ctx }
      let s := if s.state old = .running then schedulerAddThread s old else s
      s.switchTo next

/-- `scheduler_block_current` -/
def schedulerBlockCurrent (s : Scheduler T) (ctx : CpuContext) : Scheduler T :=
  match s.current with
  | none => s
  | some old =>
    match s.ready.pop with
    | (_, none) => { s with state := update s.state old .running }
    | (ready, some next) =>
      Scheduler.switchTo
        { s with ready := ready, context := update s.context old ctx } next

/-- The end of `scheduler_thread_exit`: the next thread runs, if one is ready. -/
def Scheduler.leave (s : Scheduler T) (ctx : CpuContext) : Option (Scheduler T) :=
  match s.ready.pop with
  | (_, none) => none
  | (ready, some next) =>
    match s.current with
    | none => some (Scheduler.switchTo { s with ready := ready } next)
    | some old =>
      some (Scheduler.switchTo
        { s with ready := ready, context := update s.context old ctx } next)

end Scheduler

variable {V : Type*} {s : Procs V}

/-- The state after `scheduler_init`, before the first process. -/
def Procs.boot : Procs V where
  kmallocPtr := 0
  nextPid := 1
  table :=
    { processList := none
      pid := fun _ => 0
      next := fun _ => none
      parent := fun _ => none
      children := fun _ => none
      siblingNext := fun _ => none
      isZombie := fun _ => false
      reaped := [] }
  mainThread := fun _ => none
  waitQueue := fun _ => none
  mm := fun _ => false
  isForkChild := fun _ => false
  exitCode := fun _ => 0
  process := fun _ => none
  threads := []
  sched := schedulerInit fun _ => ⟨0, 0, 0, 0, 0, 0, 0, 0⟩
  files := Files.empty kmallocRegionSize V
  halted := false

/-- The free end of the region begins at `k`. -/
def Procs.bump (s : Procs V) (k : ℕ) : Procs V := { s with kmallocPtr := k }

/-- `kmalloc` with the alignment 16 that every caller asks for. The region begins at such an
address. -/
def kmalloc (s : Procs V) (size : ℕ) : Procs V × Option (Fin kmallocRegionSize) :=
  let ptr := (s.kmallocPtr + 15) / 16 * 16
  if h : 0 < size ∧ ptr + size ≤ kmallocRegionSize then
    (s.bump (ptr + size), some ⟨ptr, by omega⟩)
  else (s, none)

/-- The zeroes in a new PCB. -/
def clearPcb (s : Procs V) (p : PcbPtr) : Procs V :=
  { s with
    table := s.table.clear p
    mainThread := update s.mainThread p none
    waitQueue := update s.waitQueue p none
    mm := update s.mm p false
    isForkChild := update s.isForkChild p false
    exitCode := update s.exitCode p 0
    files := s.files.clearTable p }

/-- `zalloc` of a `pcb_t`. -/
def zallocPcb (s : Procs V) : Procs V × Option PcbPtr :=
  match kmalloc s pcbSize with
  | (s, none) => (s, none)
  | (s, some p) => (clearPcb s p, some p)

/-- `get_current_process` -/
def getCurrentProcess (s : Procs V) : Option PcbPtr := s.sched.current.bind s.process

/-- A thread of a process is made and queued. -/
def addThread (s : Procs V) (t : TcbPtr) (proc : Option PcbPtr) (context : CpuContext) : Procs V :=
  { s with
    process := update s.process t proc
    threads := t :: s.threads
    sched := schedulerAddThread
      { s.sched with context := update s.sched.context t context } t }

/-- `create_thread`: the new thread, null when there is no memory for its TCB, or `none` when
there is none for its stack: the first store to the stack is then at the top of the address
space, and the kernel panics. -/
def createThread (s : Procs V) (proc : Option PcbPtr) (entry : UInt64) :
    Option (Procs V × Option TcbPtr) :=
  match kmalloc s tcbSize with
  | (s, none) => some (s, none)
  | (s, some t) =>
    match kmalloc s kernelStackSize with
    | (_, none) => none
    | (s, some stack) =>
      let rsp := UInt64.ofNat (stack.val + kernelStackSize - 8)
      some (addThread s t proc ⟨entry, rsp, rsp, 0, 0, 0, 0, 0⟩, some t)

/-- The fields of a new PCB that `create_process` sets before it makes the thread. -/
def initProcess (s : Procs V) (p : PcbPtr) (mm : Bool) : Procs V :=
  let table := s.table.introduce p s.nextPid (getCurrentProcess s)
  { s with
    nextPid := s.nextPid + 1
    mm := update s.mm p mm
    table :=
      match getCurrentProcess s with
      | some caller => table.pushChild caller p
      | none => table }

/-- The end of `create_process`. -/
def finishProcess (tty : V) (s : Procs V) (p : PcbPtr) (thread : Option TcbPtr) : Procs V :=
  { s with
    mainThread := update s.mainThread p thread
    table := s.table.push p
    files := fdInitStdio s.files p tty }

/-- `create_process`, where `mm` says whether `mm_create` succeeds, or `none` when the kernel
panics. -/
def createProcess (tty : V) (s : Procs V) (entry : UInt64) (mm : Bool) :
    Option (Procs V × Option PcbPtr) :=
  match zallocPcb s with
  | (s, none) => some (s, none)
  | (s, some p) =>
    match createThread (initProcess s p mm) (some p) entry with
    | none => none
    | some (s, thread) => some (finishProcess tty s p thread, some p)

/-- The fields of the child that `fork_process` sets before it clones the address space. -/
def beginFork (s : Procs V) (parent child : PcbPtr) : Procs V :=
  { s with
    nextPid := s.nextPid + 1
    table := s.table.introduce child s.nextPid (some parent)
    files := fdClone s.files parent child }

/-- The address space of the child is there. -/
def Procs.withMm (s : Procs V) (p : PcbPtr) : Procs V :=
  { s with mm := update s.mm p true }

/-- The fields of the thread that `fork_process` sets before it has a stack. -/
def forkThread (s : Procs V) (child : PcbPtr) (parentThread t : TcbPtr) : Procs V :=
  { s with
    process := update s.process t (some child)
    sched := { s.sched with
      state := update s.sched.state t .ready
      context := update s.sched.context t (s.sched.context parentThread) } }

/-- The end of `fork_process`, which nothing can stop any more. -/
def finishFork (s : Procs V) (parent child : PcbPtr) (t : TcbPtr) : Procs V :=
  { s with
    mainThread := update s.mainThread child (some t)
    isForkChild := update s.isForkChild child true
    threads := t :: s.threads
    sched := schedulerAddThread s.sched t
    table := (s.table.push child).pushChild parent child }

/-- `fork_process`, where `cloned` says whether `paging_clone_cow` succeeds. -/
def forkProcess (s : Procs V) (cloned : Bool) : Procs V × ℤ :=
  match s.sched.current with
  | none => (s, -1)
  | some parentThread =>
    match s.process parentThread with
    | none => (s, -1)
    | some parent =>
      match zallocPcb s with
      | (s, none) => (s, -1)
      | (s, some child) =>
        let s := beginFork s parent child
        if s.mm parent = false then (s, -1)
        else
          match kmalloc s mmSize with
          | (s, none) => (s, -1)
          | (s, some _) =>
            if cloned = false then (s, -1)
            else
              match kmalloc (s.withMm child) tcbSize with
              | (s, none) => (s, -1)
              | (s, some t) =>
                match kmalloc (forkThread s child parentThread t) kernelStackSize with
                | (s, none) => (s, -1)
                | (s, some _) => (finishFork s parent child t, s.table.pid child)

/-- `sys_fork`: a child that has not called it yet gets its 0. -/
def sysFork (s : Procs V) (cloned : Bool) : Procs V × ℤ :=
  match getCurrentProcess s with
  | some p =>
    if s.isForkChild p then ({ s with isForkChild := update s.isForkChild p false }, 0)
    else forkProcess s cloned
  | none => forkProcess s cloned

/-- `process_reap` -/
def processReap (s : Procs V) (child : PcbPtr) : Procs V :=
  { s with
    files := fdCloseAll s.files child
    mm := update s.mm child false
    table := s.table.reap child }

/-- The loop of `process_reparent_children`. -/
def reparentLoop (dying : PcbPtr) (init : Option PcbPtr) :
    ℕ → Option PcbPtr → Procs V → Procs V
  | 0, _, s => s
  | _ + 1, none, s => s
  | fuel + 1, some child, s =>
    let nextSib := s.table.siblingNext child
    let s := if s.table.isZombie child then processReap s child
      else { s with table := s.table.adopt dying init child }
    reparentLoop dying init fuel nextSib s

/-- `process_reparent_children` -/
def processReparentChildren (s : Procs V) (dying : PcbPtr) : Procs V :=
  match s.table.children dying with
  | none => s
  | some child =>
    let s := reparentLoop dying (s.table.findProcessByPid 1) kmallocRegionSize (some child) s
    { s with table := s.table.withChildren dying none }

/-- The thread that waits for the children of the parent becomes ready. -/
def wakeParent (s : Procs V) (proc : PcbPtr) : Procs V :=
  match s.table.parent proc with
  | none => s
  | some parent =>
    match s.waitQueue parent with
    | none => s
    | some waiting =>
      let s := { s with waitQueue := update s.waitQueue parent none }
      if s.sched.state waiting = .blocked then
        { s with sched := schedulerAddThread s.sched waiting }
      else s

/-- What `scheduler_thread_exit` does when the main thread of a process exits. -/
def exitProcess (s : Procs V) (proc : PcbPtr) : Procs V :=
  let s := { s with
    table := { s.table with isZombie := update s.table.isZombie proc true } }
  wakeParent (processReparentChildren s proc) proc

/-- The first part of `scheduler_thread_exit`: the current thread is marked. -/
def markExit (s : Procs V) : Procs V :=
  match s.sched.current with
  | none => s
  | some t =>
    let s := { s with
      sched := { s.sched with state := update s.sched.state t .zombie } }
    match s.process t with
    | none => s
    | some proc => if s.mainThread proc = some t then exitProcess s proc else s

/-- The main thread of the process `d` is the current thread. -/
def RunsMain (s : Procs V) (d : PcbPtr) : Prop :=
  ∃ t, s.sched.current = some t ∧ s.process t = some d ∧ s.mainThread d = some t

theorem RunsMain.unique {d d' : PcbPtr} (h : RunsMain s d) (h' : RunsMain s d') :
    d = d' := by
  obtain ⟨t, hcurrent, hprocess, -⟩ := h
  obtain ⟨t', hcurrent', hprocess', -⟩ := h'
  obtain rfl : t = t' := Option.some.inj (hcurrent.symm.trans hcurrent')
  exact Option.some.inj (hprocess.symm.trans hprocess')

/-- `scheduler_thread_exit` -/
def schedulerThreadExit (s : Procs V) (ctx : CpuContext) : Procs V :=
  let s := markExit s
  match s.sched.leave ctx with
  | none => { s with halted := true }
  | some sched => { s with sched := sched }

/-- `signal_deliver` stores the exit status before the thread exits. -/
def setExitCode (s : Procs V) (code : ℤ) : Procs V :=
  match getCurrentProcess s with
  | some p => { s with exitCode := update s.exitCode p code }
  | none => s

/-- What a scan of `waitpid_process` came to: it returns a value and stores the status, or it
waits. -/
inductive WaitEnd where
  | returned (value : ℤ) (status : Option ℤ)
  | waits
  deriving DecidableEq

/-- The children that `waitpid_process` looks for. -/
def waitMatches (s : Procs V) (pid : ℤ) (child : PcbPtr) : Bool :=
  (pid == -1 || (s.table.pid child : ℤ) == pid % 2 ^ 64) && s.table.isZombie child

/-- `waitpid_process`, from `retry` to its end or its next wait. -/
def waitpidProcess (s : Procs V) (pid options : ℤ) (ctx : CpuContext) : Procs V × WaitEnd :=
  match s.sched.current with
  | none => (s, .returned (-1) none)
  | some me =>
    match s.process me with
    | none => (s, .returned (-1) none)
    | some parent =>
      match s.table.children parent with
      | none => (s, .returned (-1) none)
      | some first =>
        match walkFindPrev s.table.siblingNext (waitMatches s pid) kmallocRegionSize none
            (some first) with
        | some (prev, child) =>
          let t := { s with table := s.table.unlinkChild parent prev child }
          (processReap t child, .returned (s.table.pid child) (some (s.exitCode child)))
        | none =>
          if options % 2 = 1 then (s, .returned 0 none)
          else
            ({ s with
              waitQueue := update s.waitQueue parent (some me)
              sched := schedulerBlockCurrent
                { s.sched with state := update s.sched.state me .blocked } ctx },
              .waits)

/-- How far `exec_process` comes. -/
inductive ExecEnd where
  | notFound
  | readFailed
  | noMm
  | loadFailed
  | loaded (entry : UInt64)

/-- `exec_process`, for a path that leads to one of its ends. -/
def execProcess (s : Procs V) (outcome : ExecEnd) : Procs V × ℤ :=
  match getCurrentProcess s with
  | none => (s, -3)
  | some proc =>
    match outcome with
    | .notFound => (s, -2)
    | .readFailed => (s, -5)
    | .noMm => ({ s with mm := update s.mm proc false }, -12)
    | .loadFailed => ({ s with mm := update s.mm proc true }, -22)
    | .loaded entry =>
      let s := { s with
        mm := update s.mm proc true
        files := fdCloseFrom 3 s.files proc }
      match s.mainThread proc with
      | none => (s, 0)
      | some t =>
        let context := { s.sched.context t with rip := entry, rsp := 0x7ffffffffff8, rbp := 0 }
        ({ s with
          sched := { s.sched with context := update s.sched.context t context } }, 0)

/-- `SYS_OPEN` once the path has led to a vnode. -/
def sysOpenCurrent (s : Procs V) (vp : V) (flags : ℕ) : Procs V × ℤ :=
  match getCurrentProcess s with
  | some p =>
    let r := sysOpen s.files p vp flags
    ({ s with files := r.1 }, r.2)
  | none =>
    match fileAlloc s.files vp flags with
    | (_, none) => (s, -12)
    | (files, some f) => ({ s with files := files.release f }, -3)

/-- `SYS_CLOSE`, `SYS_DUP` and `SYS_PIPE` act on the current process. -/
def onCurrentFiles (s : Procs V)
    (call : Files kmallocRegionSize V → PcbPtr → Files kmallocRegionSize V × ℤ) :
    Procs V × ℤ :=
  match getCurrentProcess s with
  | some p =>
    let r := call s.files p
    ({ s with files := r.1 }, r.2)
  | none => (s, -3)

/-- The calls. Those of the current thread, or of the boot code while there is none, and the
timer tick. A thread is made for the process with a pid, if there is one. -/
inductive ProcOp (V : Type*) where
  | createProcess (entry : UInt64) (mm : Bool)
  | createThread (pid : ℕ) (entry : UInt64)
  | fork (cloned : Bool)
  | sysFork (cloned : Bool)
  | yield (ctx : CpuContext)
  | tick (r : Regs)
  | exit (code : Option ℤ) (ctx : CpuContext)
  | waitpid (pid options : ℤ) (ctx : CpuContext)
  | exec (outcome : ExecEnd)
  | open (vp : V) (flags : ℕ)
  | close (fd : ℤ)
  | dup (fd : ℤ)
  | pipe (rd wr : Option V)

/-- The state after a call that a kernel panic may cut short. -/
def Procs.orPanic {α : Type*} (s : Procs V) : Option (Procs V × α) → Procs V
  | some r => r.1
  | none => { s with halted := true }

/-- One call on a machine that has not halted. -/
def Procs.call (tty : V) (s : Procs V) : ProcOp V → Procs V
  | .createProcess entry mm => s.orPanic (Proc.createProcess tty s entry mm)
  | .createThread pid entry =>
    s.orPanic (Proc.createThread s (s.table.findProcessByPid pid) entry)
  | .fork cloned => (forkProcess s cloned).1
  | .sysFork cloned => (Proc.sysFork s cloned).1
  | .yield ctx => { s with sched := schedulerYield s.sched ctx }
  | .tick r => { s with sched := (schedulerTick s.sched r).1 }
  | .exit none ctx => schedulerThreadExit s ctx
  | .exit (some code) ctx => schedulerThreadExit (setExitCode s code) ctx
  | .waitpid pid options ctx => (waitpidProcess s pid options ctx).1
  | .exec outcome => (execProcess s outcome).1
  | .open vp flags => (sysOpenCurrent s vp flags).1
  | .close fd => (onCurrentFiles s fun files p => fdClose files p fd).1
  | .dup fd => (onCurrentFiles s fun files p => fdDup files p fd).1
  | .pipe rd wr => (onCurrentFiles s fun files p => pipeCreate files p rd wr).1

/-- One call; a halted machine makes none. -/
def procStep (tty : V) (s : Procs V) (op : ProcOp V) : Procs V :=
  if s.halted then s else s.call tty op

/-! ## What the calls can do -/

section

variable (s : Procs V)

/-- `kmalloc` fails, or takes memory from the free end of the region. -/
theorem kmalloc_cases (size : ℕ) :
    kmalloc s size = (s, none) ∨
      ∃ p k, kmalloc s size = (s.bump k, some p) ∧ s.kmallocPtr ≤ p.val ∧ p.val < k := by
  unfold kmalloc
  dsimp only
  split_ifs with hfits
  · refine .inr ⟨_, _, rfl, ?_, ?_⟩
    · dsimp only
      omega
    · dsimp only
      omega
  · exact .inl rfl

theorem zallocPcb_cases :
    zallocPcb s = (s, none) ∨
      ∃ p k, zallocPcb s = (clearPcb (s.bump k) p, some p) ∧ s.kmallocPtr ≤ p.val ∧ p.val < k := by
  unfold zallocPcb
  rcases kmalloc_cases s pcbSize with hnone | ⟨p, k, hsome, hle, hlt⟩
  · rw [hnone]
    exact .inl rfl
  · rw [hsome]
    exact .inr ⟨p, k, rfl, hle, hlt⟩

theorem createThread_cases (proc : Option PcbPtr) (entry : UInt64) :
    createThread s proc entry = none ∨ createThread s proc entry = some (s, none) ∨
      ∃ t k ctx, createThread s proc entry = some (addThread (s.bump k) t proc ctx, some t) ∧
        s.kmallocPtr ≤ t.val ∧ t.val < k := by
  unfold createThread
  rcases kmalloc_cases s tcbSize with hnone | ⟨t, k, hsome, hle, hlt⟩
  · rw [hnone]
    exact .inr (.inl rfl)
  · rw [hsome]
    dsimp only
    rcases kmalloc_cases (s.bump k) kernelStackSize with hnone | ⟨stack, m, hsome', hle', hlt'⟩
    · rw [hnone]
      exact .inl rfl
    · have hle' : k ≤ stack.val := hle'
      rw [hsome']
      exact .inr (.inr ⟨t, m, _, rfl, hle, by omega⟩)

/-- `create_process` panics, fails, or makes a process with or without a thread. -/
theorem createProcess_cases (tty : V) (entry : UInt64) (mm : Bool) :
    createProcess tty s entry mm = none ∨ createProcess tty s entry mm = some (s, none) ∨
      ∃ p k u, s.kmallocPtr ≤ p.val ∧ p.val < k ∧
        u = initProcess (clearPcb (s.bump k) p) p mm ∧
        (createProcess tty s entry mm = some (finishProcess tty u p none, some p) ∨
          ∃ t m ctx, k ≤ t.val ∧ t.val < m ∧
            createProcess tty s entry mm =
              some (finishProcess tty (addThread (u.bump m) t (some p) ctx) p (some t),
                some p)) := by
  unfold createProcess
  rcases zallocPcb_cases s with hnone | ⟨p, k, hsome, hle, hlt⟩
  · rw [hnone]
    exact .inr (.inl rfl)
  · rw [hsome]
    dsimp only
    rcases createThread_cases (initProcess (clearPcb (s.bump k) p) p mm) (some p) entry with
      hpanic | hnone | ⟨t, m, ctx, hthread, hle', hlt'⟩
    · rw [hpanic]
      exact .inl rfl
    · rw [hnone]
      exact .inr (.inr ⟨p, k, _, hle, hlt, rfl, .inl rfl⟩)
    · rw [hthread]
      exact .inr (.inr ⟨p, k, _, hle, hlt, rfl, .inr ⟨t, m, ctx, hle', hlt', rfl⟩⟩)

/-- `fork_process` changes nothing, or fails with or without a TCB for the child, or makes the
child. -/
theorem forkProcess_cases (cloned : Bool) :
    forkProcess s cloned = (s, -1) ∨
      ∃ me parent child k u, s.sched.current = some me ∧ s.process me = some parent ∧
        s.kmallocPtr ≤ child.val ∧ child.val < k ∧
        u = beginFork (clearPcb (s.bump k) child) parent child ∧
        ((∃ m mm, k ≤ m ∧
            forkProcess s cloned = (Procs.bump { u with mm := mm } m, -1)) ∨
          ∃ t l m mm w, k ≤ t.val ∧ t.val < l ∧ l ≤ m ∧
            w = forkThread (Procs.bump { u with mm := mm } l) child me t ∧
            (forkProcess s cloned = (w, -1) ∨
              forkProcess s cloned =
                (finishFork (w.bump m) parent child t, (w.table.pid child : ℤ)))) := by
  unfold forkProcess
  cases hcurrent : s.sched.current with
  | none => exact .inl rfl
  | some me =>
    dsimp only
    cases hprocess : s.process me with
    | none => exact .inl rfl
    | some parent =>
      rcases zallocPcb_cases s with hnone | ⟨child, k, hsome, hle, hlt⟩
      · rw [hnone]
        exact .inl rfl
      rw [hsome]
      refine .inr ⟨me, parent, child, k, _, rfl, hprocess, hle, hlt, rfl, ?_⟩
      dsimp only
      generalize hu : beginFork (clearPcb (s.bump k) child) parent child = u
      have hk : u.kmallocPtr = k := by rw [← hu]; rfl
      by_cases hmm : u.mm parent = false
      · rw [if_pos hmm]
        exact .inl ⟨k, u.mm, le_rfl, by rw [← hk]; rfl⟩
      rw [if_neg hmm]
      rcases kmalloc_cases u mmSize with hnone | ⟨q, k₁, hsome₁, hle₁, hlt₁⟩
      · rw [hnone]
        exact .inl ⟨k, u.mm, le_rfl, by rw [← hk]; rfl⟩
      rw [hsome₁]
      dsimp only
      by_cases hcloned : cloned = false
      · rw [if_pos hcloned]
        exact .inl ⟨k₁, u.mm, by omega, rfl⟩
      rw [if_neg hcloned]
      rcases kmalloc_cases ((u.bump k₁).withMm child) tcbSize with
        hnone | ⟨t, k₂, hsome₂, hle₂, hlt₂⟩
      · rw [hnone]
        exact .inl ⟨k₁, update u.mm child true, by omega, rfl⟩
      have hle₂ : k₁ ≤ t.val := hle₂
      rw [hsome₂]
      dsimp only
      rcases kmalloc_cases (forkThread (((u.bump k₁).withMm child).bump k₂) child me t)
        kernelStackSize with hnone | ⟨stack, k₃, hsome₃, hle₃, hlt₃⟩
      · rw [hnone]
        exact .inr ⟨t, k₂, k₂, update u.mm child true, _, by omega, hlt₂, le_rfl, rfl,
          .inl rfl⟩
      · have hle₃ : k₂ ≤ stack.val := hle₃
        rw [hsome₃]
        exact .inr ⟨t, k₂, k₃, update u.mm child true, _, by omega, hlt₂, by omega, rfl,
          .inr rfl⟩

/-- Reparenting does not touch the threads. -/
theorem reparentLoop_frame (dying : PcbPtr) (init : Option PcbPtr) (fuel : ℕ) (cur : Option PcbPtr) :
    ∃ files mm table, reparentLoop dying init fuel cur s =
      { s with files := files, mm := mm, table := table } := by
  induction fuel generalizing cur s with
  | zero => exact ⟨s.files, s.mm, s.table, rfl⟩
  | succ fuel ih =>
    cases cur with
    | none => exact ⟨s.files, s.mm, s.table, rfl⟩
    | some child =>
      unfold reparentLoop
      split_ifs
      · exact ih (processReap s child) _
      · exact ih { s with table := s.table.adopt dying init child } _

theorem processReparentChildren_frame (dying : PcbPtr) :
    ∃ files mm table, processReparentChildren s dying =
      { s with files := files, mm := mm, table := table } := by
  unfold processReparentChildren
  cases s.table.children dying with
  | none => exact ⟨s.files, s.mm, s.table, rfl⟩
  | some child =>
    obtain ⟨files, mm, table, heq⟩ := reparentLoop_frame s dying (s.table.findProcessByPid 1)
      kmallocRegionSize (some child)
    dsimp only
    rw [heq]
    exact ⟨files, mm, _, rfl⟩

theorem wakeParent_frame (proc : PcbPtr) :
    ∃ waitQueue sched, wakeParent s proc = { s with waitQueue := waitQueue, sched := sched } := by
  unfold wakeParent
  cases s.table.parent proc with
  | none => exact ⟨s.waitQueue, s.sched, rfl⟩
  | some parent =>
    dsimp only
    cases s.waitQueue parent with
    | none => exact ⟨s.waitQueue, s.sched, rfl⟩
    | some w =>
      dsimp only
      split_ifs
      · exact ⟨_, _, rfl⟩
      · exact ⟨_, s.sched, rfl⟩

/-- The end of an exit only switches threads, or halts the machine. -/
theorem schedulerThreadExit_frame (ctx : CpuContext) :
    ∃ sched halted, schedulerThreadExit s ctx =
      { markExit s with sched := sched, halted := halted } := by
  unfold schedulerThreadExit
  dsimp only
  cases (markExit s).sched.leave ctx with
  | none => exact ⟨(markExit s).sched, true, rfl⟩
  | some sched => exact ⟨sched, (markExit s).halted, rfl⟩

/-- The thread `t` has become a zombie. -/
def Procs.endThread (s : Procs V) (t : TcbPtr) : Procs V :=
  { s with sched := { s.sched with state := update s.sched.state t .zombie } }

/-- The first part of an exit ends the current thread, and the process if it is its main thread. -/
theorem markExit_cases :
    ((∀ d, ¬ RunsMain s d) ∧ (s.sched.current = none ∧ markExit s = s ∨
        ∃ t, s.sched.current = some t ∧ markExit s = s.endThread t)) ∨
      ∃ d t, s.sched.current = some t ∧ s.process t = some d ∧ s.mainThread d = some t ∧
        markExit s = exitProcess (s.endThread t) d := by
  unfold markExit RunsMain
  cases s.sched.current with
  | none => exact .inl ⟨by simp, .inl ⟨rfl, rfl⟩⟩
  | some t =>
    dsimp only
    cases hproc : s.process t with
    | none => exact .inl ⟨by simp [hproc], .inr ⟨t, rfl, rfl⟩⟩
    | some d =>
      dsimp only
      split_ifs with hmain
      · exact .inr ⟨d, t, rfl, hproc, hmain, rfl⟩
      · exact .inl ⟨by simp [hproc, hmain], .inr ⟨t, rfl, rfl⟩⟩

/-- When its children are handed over, the process that exits wakes its parent. -/
theorem exitProcess_frame (d : PcbPtr) :
    ∃ files mm table, exitProcess s d =
      wakeParent { s with files := files, mm := mm, table := table } d := by
  obtain ⟨files, mm, table, heq⟩ := processReparentChildren_frame { s with
    table := { s.table with isZombie := update s.table.isZombie d true } } d
  exact ⟨files, mm, table, congrArg (wakeParent · d) heq⟩

theorem markExit_frame :
    ∃ files mm table waitQueue sched, markExit s = { s with
      files := files, mm := mm, table := table, waitQueue := waitQueue, sched := sched } := by
  rcases markExit_cases s with ⟨-, ⟨-, hmark⟩ | ⟨t, -, hmark⟩⟩ | ⟨d, t, -, -, -, hmark⟩
  · exact ⟨_, _, _, _, _, hmark⟩
  · exact ⟨_, _, _, _, _, hmark⟩
  · obtain ⟨files, mm, table, hexit⟩ := exitProcess_frame (s.endThread t) d
    obtain ⟨waitQueue, sched, hwake⟩ :=
      wakeParent_frame { s.endThread t with files := files, mm := mm, table := table } d
    exact ⟨_, _, _, _, _, hmark.trans (hexit.trans hwake)⟩

/-- An exit leaves the threads of the processes as they are. -/
theorem schedulerThreadExit_threads (ctx : CpuContext) :
    (schedulerThreadExit s ctx).threads = s.threads ∧
      (schedulerThreadExit s ctx).process = s.process := by
  obtain ⟨sched, halted, heq⟩ := schedulerThreadExit_frame s ctx
  obtain ⟨files, mm, table, waitQueue, sched', hmark⟩ := markExit_frame s
  rw [heq, hmark]
  exact ⟨rfl, rfl⟩

/-- `waitpid_process` changes nothing, reaps a child, or blocks. -/
theorem waitpidProcess_cases (pid options : ℤ) (ctx : CpuContext) :
    (waitpidProcess s pid options ctx).1 = s ∨
      (∃ parent first prev child, s.table.children parent = some first ∧
        walkFindPrev s.table.siblingNext (waitMatches s pid) kmallocRegionSize none (some first) =
          some (prev, child) ∧
        (waitpidProcess s pid options ctx).1 =
          processReap { s with table := s.table.unlinkChild parent prev child } child) ∨
      ∃ me parent, s.sched.current = some me ∧ s.process me = some parent ∧
        (waitpidProcess s pid options ctx).1 = { s with
        waitQueue := update s.waitQueue parent (some me)
        sched := schedulerBlockCurrent
          { s.sched with state := update s.sched.state me .blocked } ctx } := by
  unfold waitpidProcess
  cases s.sched.current with
  | none => exact .inl rfl
  | some me =>
    dsimp only
    cases hproc : s.process me with
    | none => exact .inl rfl
    | some parent =>
      dsimp only
      cases hfirst : s.table.children parent with
      | none => exact .inl rfl
      | some first =>
        dsimp only
        cases hfind : walkFindPrev s.table.siblingNext (waitMatches s pid) kmallocRegionSize none
          (some first) with
        | some found => exact .inr (.inl ⟨parent, first, found.1, found.2, hfirst, hfind, rfl⟩)
        | none =>
          split_ifs
          · exact .inl rfl
          · exact .inr (.inr ⟨me, parent, rfl, hproc, rfl⟩)

/-- The calls on files and on the address space of the current process. -/
def ProcOp.onFiles : ProcOp V → Bool
  | .exec _ => true
  | .open _ _ => true
  | .close _ => true
  | .dup _ => true
  | .pipe _ _ => true
  | _ => false

/-- Calls on files leave the processes and the order of the threads alone. -/
theorem call_onFiles_frame (tty : V) {op : ProcOp V} (hop : op.onFiles = true) :
    ∃ files mm context, s.call tty op =
      { s with files := files, mm := mm, sched := { s.sched with context := context } } := by
  have hfiles : ∀ call, ∃ files mm context, (onCurrentFiles s call).1 =
      { s with files := files, mm := mm, sched := { s.sched with context := context } } := by
    intro call
    unfold onCurrentFiles
    cases getCurrentProcess s <;> exact ⟨_, _, _, rfl⟩
  cases op with
  | exec outcome =>
    simp only [Procs.call, execProcess]
    cases getCurrentProcess s with
    | none => exact ⟨_, _, _, rfl⟩
    | some proc =>
      cases outcome with
      | loaded entry =>
        dsimp only
        cases s.mainThread proc <;> exact ⟨_, _, _, rfl⟩
      | _ => exact ⟨_, _, _, rfl⟩
  | «open» vp flags =>
    simp only [Procs.call, sysOpenCurrent]
    cases getCurrentProcess s with
    | some p => exact ⟨_, _, _, rfl⟩
    | none =>
      dsimp only
      split <;> exact ⟨_, _, _, rfl⟩
  | close fd => exact hfiles _
  | dup fd => exact hfiles _
  | pipe rd wr => exact hfiles _
  | _ => cases hop

end

/-- Whether the region has room for objects of the given sizes, one after the other. -/
def room : ℕ → List ℕ → Bool
  | _, [] => true
  | ptr, size :: sizes =>
    let ptr := (ptr + 15) / 16 * 16
    decide (ptr + size ≤ kmallocRegionSize) && room (ptr + size) sizes

/-- The first object fits: `kmalloc` returns it and leaves room for the rest. -/
theorem kmalloc_of_room {size : ℕ} {sizes : List ℕ} (hsize : 0 < size)
    (h : room s.kmallocPtr (size :: sizes) = true) :
    ∃ p k, kmalloc s size = (s.bump k, some p) ∧ room k sizes = true := by
  simp only [room, Bool.and_eq_true, decide_eq_true_eq] at h
  unfold kmalloc
  rw [dif_pos ⟨hsize, h.1⟩]
  exact ⟨_, _, rfl, h.2⟩

/-- A fork without memory for the PCB does nothing. -/
theorem forkProcess_noPcb (s : Procs V) (cloned : Bool)
    (hroom : room s.kmallocPtr [pcbSize] = false) : forkProcess s cloned = (s, -1) := by
  have hpcb : zallocPcb s = (s, none) := by
    simp only [room, Bool.and_true, decide_eq_false_iff_not] at hroom
    unfold zallocPcb kmalloc
    rw [dif_neg fun hfits => hroom hfits.2]
  unfold forkProcess
  rw [hpcb]
  cases s.sched.current with
  | none => rfl
  | some me =>
    dsimp only
    cases s.process me <;> rfl

/-- A fork of a process with an address space succeeds when there is memory for all of it. -/
theorem forkProcess_ne (s : Procs V) {me : TcbPtr} {parent : PcbPtr}
    (hcurrent : s.sched.current = some me) (hprocess : s.process me = some parent)
    (hold : parent.val < s.kmallocPtr) (hmm : s.mm parent = true)
    (hroom : room s.kmallocPtr [pcbSize, mmSize, tcbSize, kernelStackSize] = true) :
    (forkProcess s true).2 ≠ -1 := by
  obtain ⟨child, k, hpcb, hroom⟩ := kmalloc_of_room (by decide) hroom
  have hzalloc : zallocPcb s = (clearPcb (s.bump k) child, some child) := by
    unfold zallocPcb
    rw [hpcb]
  have hchild : parent ≠ child := by
    rcases zallocPcb_cases s with hnone | ⟨p, k', hsome, hle, -⟩
    · rw [hzalloc] at hnone
      cases congrArg Prod.snd hnone
    · rw [hzalloc] at hsome
      obtain rfl : child = p := Option.some.inj (congrArg Prod.snd hsome)
      rintro rfl
      omega
  unfold forkProcess
  rw [hcurrent]
  dsimp only
  rw [hprocess]
  rw [hzalloc]
  dsimp only
  have hparent : (beginFork (clearPcb (s.bump k) child) parent child).mm parent = true := by
    change update s.mm child false parent = true
    rw [update_of_ne hchild, hmm]
  rw [hparent, if_neg (by decide)]
  obtain ⟨_, k₁, hmmAlloc, hroom⟩ := kmalloc_of_room
    (s := beginFork (clearPcb (s.bump k) child) parent child) (by decide) hroom
  rw [hmmAlloc]
  dsimp only
  obtain ⟨t, k₂, htcb, hroom⟩ := kmalloc_of_room
    (s := ((beginFork (clearPcb (s.bump k) child) parent child).bump k₁).withMm child)
    (by decide) hroom
  rw [htcb]
  dsimp only
  obtain ⟨_, k₃, hstack, -⟩ := kmalloc_of_room
    (s := forkThread ((((beginFork (clearPcb (s.bump k) child) parent child).bump k₁).withMm
      child).bump k₂) child me t) (by decide) hroom
  rw [hstack]
  simp

/-- `sys_fork` forks, or gives a new child its 0. -/
theorem sysFork_cases (s : Procs V) (cloned : Bool) :
    sysFork s cloned = forkProcess s cloned ∨
      ∃ isForkChild, sysFork s cloned = ({ s with isForkChild := isForkChild }, 0) := by
  unfold sysFork
  cases getCurrentProcess s with
  | none => exact .inl rfl
  | some p =>
    dsimp only
    split_ifs
    · exact .inr ⟨_, rfl⟩
    · exact .inl rfl

/-- A child that has not called `sys_fork` yet makes no process. -/
theorem sysFork_of_child (s : Procs V) (cloned : Bool)
    (hchild : (getCurrentProcess s).any s.isForkChild = true) :
    ∃ isForkChild, sysFork s cloned = ({ s with isForkChild := isForkChild }, 0) := by
  unfold sysFork
  cases hp : getCurrentProcess s with
  | none =>
    rw [hp] at hchild
    cases hchild
  | some p =>
    rw [hp] at hchild
    dsimp only
    rw [if_pos (by simpa using hchild)]
    exact ⟨_, rfl⟩

/-- The exit status does not matter for the rest. -/
theorem setExitCode_frame (s : Procs V) (code : ℤ) :
    ∃ exitCode, setExitCode s code = { s with exitCode := exitCode } := by
  unfold setExitCode
  cases getCurrentProcess s with
  | none => exact ⟨s.exitCode, rfl⟩
  | some p => exact ⟨_, rfl⟩

/-- An exit with or without a code. -/
theorem call_exit (tty : V) (s : Procs V) (code : Option ℤ) (ctx : CpuContext) :
    ∃ exitCode, s.call tty (.exit code ctx) =
      schedulerThreadExit { s with exitCode := exitCode } ctx := by
  cases code with
  | none => exact ⟨s.exitCode, rfl⟩
  | some code =>
    obtain ⟨exitCode, heq⟩ := setExitCode_frame s code
    refine ⟨exitCode, ?_⟩
    simp only [Procs.call]
    rw [heq]

end Tomahawk.Proc
