import Tomahawk.Proc.Lifecycle

/-!
# Open files over whole runs

The descriptors that count are those of the processes in the list. A process enters the list
with its descriptors and leaves it when they are closed, so the reference counts stay right as
long as no other process has one.
-/

namespace Tomahawk.Proc

open Function Tomahawk.Lib

variable {V : Type*} {s s' : Procs V} {P : List PcbPtr} {kids : PcbPtr → List PcbPtr}
  {c d p : PcbPtr}

/-- The references are the descriptors, and only processes in the list have some. -/
structure FilesOk (s : Procs V) (P : List PcbPtr) : Prop where
  balanced : s.files.Balanced
  outside : ∀ p ∉ P, ∀ fd, s.files.table p fd = none

/-- The process list is again known, and the references are right. -/
def Accounted (s : Procs V) : Prop :=
  ∃ P, IsList s.table.next s.table.processList P ∧ FilesOk s P

theorem FilesOk.congr (h : FilesOk s P) (hfiles : s'.files = s.files) : FilesOk s' P := by
  constructor
  · rw [hfiles]
    exact h.balanced
  · rw [hfiles]
    exact h.outside

/-- A call that leaves the files and the list alone. -/
theorem FilesOk.stay (h : FilesOk s P) (hlist : IsList s.table.next s.table.processList P)
    (htable : s'.table = s.table) (hfiles : s'.files = s.files) : Accounted s' := by
  refine ⟨P, ?_, h.congr hfiles⟩
  rw [htable]
  exact hlist

/-- A new PCB is not in the list. -/
theorem isList_clear {t u : ProcTable} (hlist : IsList t.next t.processList P) (hp : p ∉ P)
    (hnext : u.next = (t.clear p).next) (hfirst : u.processList = t.processList) :
    IsList u.next u.processList P := by
  rw [hnext, hfirst]
  refine hlist.congr fun q hq => update_of_ne ?_ _ _
  rintro rfl
  exact hp hq

section

variable (h : FilesOk s P)
include h

theorem FilesOk.createProcess (hok : TreeOk s P kids) (tty : V) (entry : UInt64) (mm : Bool) :
    Accounted (s.orPanic (Proc.createProcess tty s entry mm)) := by
  rcases createProcess_cases s tty entry mm with hpanic | hnone | ⟨p, k, u, hle, hlt, rfl, hmade⟩
  · rw [hpanic]
    exact h.stay hok.tree.list rfl rfl
  · rw [hnone]
    exact h.stay hok.tree.list rfl rfl
  have hp : p ∉ P := (hok.tree.fresh hle).1
  have hlist : IsList ((initProcess (clearPcb (s.bump k) p) p mm).table.push p).next (some p)
      (p :: P) := by
    refine IsList.push (isList_clear hok.tree.list hp ?_ ?_) hp <;>
    · unfold initProcess
      cases getCurrentProcess (clearPcb (s.bump k) p) <;> rfl
  have hnew : FilesOk { s with files := fdInitStdio (s.files.clearTable p) p tty } (p :: P) := by
    rw [Files.clearTable_eq (h.outside p hp)]
    refine ⟨(h.balanced.fdInitStdio (h.outside p hp) tty).1, fun q hq fd => ?_⟩
    rw [List.mem_cons, not_or] at hq
    rw [table_fdInitStdio_of_ne hq.1]
    exact h.outside q hq.2 fd
  rcases hmade with hmade | ⟨t, m, ctx, -, -, hmade⟩ <;>
  · rw [hmade]
    exact ⟨p :: P, hlist, hnew.congr rfl⟩

/-- The forks that lose no reference: there is no memory for the PCB, or there is enough for all
of the child, or the current process has no descriptors to clone. -/
def ForkKeeps (s : Procs V) (cloned : Bool) : Prop :=
  room s.kmallocPtr [pcbSize] = false ∨
    (cloned = true ∧ (getCurrentProcess s).all s.mm = true ∧
      room s.kmallocPtr [pcbSize, mmSize, tcbSize, kernelStackSize] = true) ∨
    (getCurrentProcess s).all (fun p => decide (∀ fd, s.files.table p fd = none)) = true

instance (s : Procs V) (cloned : Bool) : Decidable (ForkKeeps s cloned) := by
  unfold ForkKeeps
  infer_instance

theorem FilesOk.forkProcess (hok : TreeOk s P kids) (cloned : Bool) (hkeeps : ForkKeeps s cloned) :
    Accounted (Proc.forkProcess s cloned).1 := by
  rcases hkeeps with hpcb | hkeeps
  · rw [forkProcess_noPcb s cloned hpcb]
    exact h.stay hok.tree.list rfl rfl
  rcases forkProcess_cases s cloned with
    hnone | ⟨me, parent, child, k, u, hcurrent, hprocess, hle, hlt, rfl, hfork⟩
  · rw [hnone]
    exact h.stay hok.tree.list rfl rfl
  have hchild : child ∉ P := (hok.tree.fresh hle).1
  have hlist : IsList (s.table.clear child).next s.table.processList P :=
    isList_clear (u := s.table.clear child) hok.tree.list hchild rfl rfl
  have hfiles : (beginFork (clearPcb (s.bump k) child) parent child).files =
      fdClone s.files parent child :=
      congrArg (fdClone · parent child) (Files.clearTable_eq (h.outside child hchild))
  have hcaller : getCurrentProcess s = some parent := by
    unfold getCurrentProcess
    rw [hcurrent]
    exact hprocess
  have hfailed : (Proc.forkProcess s cloned).2 = -1 →
      (beginFork (clearPcb (s.bump k) child) parent child).files = s.files := by
    intro hresult
    rw [hcaller] at hkeeps
    rcases hkeeps with ⟨rfl, hmm, hroom⟩ | hempty
    · have hold := (hok.owner me parent hprocess).1
      exact absurd hresult (forkProcess_ne s hcurrent hprocess hold hmm hroom)
    · rw [hfiles]
      exact fdClone_empty (by simpa using hempty) child
  rcases hfork with ⟨m, mm, hm, hfork⟩ | ⟨t, n, m, mm, w, -, -, -, rfl, hfork | hfork⟩
  · rw [hfork] at hfailed ⊢
    exact ⟨P, hlist, h.congr (hfailed rfl)⟩
  · rw [hfork] at hfailed ⊢
    exact ⟨P, hlist, h.congr (hfailed rfl)⟩
  · have hnew : FilesOk { s with files := fdClone s.files parent child } (child :: P) := by
      refine ⟨h.balanced.fdClone parent (h.outside child hchild), fun q hq fd => ?_⟩
      rw [List.mem_cons, not_or] at hq
      rw [table_fdClone hq.1]
      exact h.outside q hq.2 fd
    rw [hfork]
    exact ⟨child :: P, hlist.push hchild, hnew.congr hfiles⟩

/-- `process_reap` closes the descriptors of a process that leaves the list. -/
theorem FilesOk.reap (hP : P.Nodup) (c : PcbPtr) : FilesOk (processReap s c) (P.erase c) := by
  have hfiles : (processReap s c).files = fdCloseFrom 0 s.files c := by
    simp only [processReap, fdCloseAll]
  constructor
  · rw [hfiles]
    exact h.balanced.fdCloseFrom 0 c
  · intro q hq fd
    rw [hfiles, table_fdCloseFrom]
    split_ifs with hclosed
    · rfl
    · have hqc : q ≠ c := fun heq => hclosed ⟨heq, Nat.zero_le _⟩
      exact h.outside q (fun hmem => hq (hP.mem_erase_iff.mpr ⟨hqc, hmem⟩)) fd

theorem FilesOk.waitpid (hok : TreeOk s P kids) (pid options : ℤ) (ctx : CpuContext) :
    Accounted (waitpidProcess s pid options ctx).1 := by
  rcases hok.waitpid_cases pid options ctx with
    ⟨waitQueue, sched, heq⟩ | ⟨parent, a, c, b, hkids, -, heq⟩
  · rw [heq]
    exact h.stay hok.tree.list rfl rfl
  · rw [heq]
    refine ⟨P.erase c, (hok.tree.reapChild hkids).list, ?_⟩
    exact reap (s := { s with table := s.table.unlinkChild parent a.getLast? c })
      (h.congr rfl) hok.tree.list.nodup c

theorem FilesOk.exitProcess (hok : TreeOk s P kids) (d : PcbPtr) :
    Accounted (Proc.exitProcess s d) := by
  obtain ⟨P', kids', htree, -, hfiles⟩ := exitProcess_rule (I := FilesOk) (d := d)
    ⟨fun _ _ c hP _ _ _ hI => hI.reap hP c, fun _ _ _ _ _ _ _ _ _ hI => hI.congr rfl⟩
    (fun _ _ hI => hI.congr rfl) (fun _ _ _ _ hI => hI.congr rfl) hok.tree (h.congr rfl)
  exact ⟨P', htree.list, hfiles⟩

theorem FilesOk.threadExit (hok : TreeOk s P kids) (ctx : CpuContext) :
    Accounted (schedulerThreadExit s ctx) := by
  obtain ⟨sched, halted, heq⟩ := schedulerThreadExit_frame s ctx
  have hmark : Accounted (Proc.markExit s) := by
    rcases markExit_cases s with ⟨-, ⟨-, hmark⟩ | ⟨t, -, hmark⟩⟩ | ⟨d, t, -, -, -, hmark⟩
    · rw [hmark]
      exact h.stay hok.tree.list rfl rfl
    · rw [hmark]
      exact h.stay hok.tree.list rfl rfl
    · rw [hmark]
      exact exitProcess (s := s.endThread t) (h.congr rfl)
        ⟨hok.tree, hok.pos, hok.owner, hok.dead⟩ d
  obtain ⟨P', hlist, hfiles⟩ := hmark
  rw [heq]
  exact ⟨P', hlist, hfiles.congr rfl⟩

end

/-- The current process, if there is one, is in the list. -/
def CallerListed (s : Procs V) : Prop :=
  (getCurrentProcess s).all (fun p => (walkFind s.table.next (fun q => q == p) kmallocRegionSize
    s.table.processList).isSome) = true

instance (s : Procs V) : Decidable (CallerListed s) := by
  unfold CallerListed
  infer_instance

theorem CallerListed.mem (h : CallerListed s) (hlist : IsList s.table.next s.table.processList P)
    (hp : getCurrentProcess s = some p) : p ∈ P := by
  unfold CallerListed at h
  rw [hp, Option.all_some, walkFind_eq hlist (length_le_region hlist.nodup),
    List.find?_isSome] at h
  obtain ⟨q, hq, heq⟩ := h
  rw [← beq_iff_eq.mp heq]
  exact hq

/-- A call on the descriptors of one process. -/
theorem FilesOk.patch (h : FilesOk s P) (hlist : IsList s.table.next s.table.processList P)
    (files : Files kmallocRegionSize V) (hbalanced : files.Balanced)
    (hothers : ∀ q ∉ P, ∀ fd, s.files.table q fd = none → files.table q fd = none)
    (htable : s'.table = s.table) (hfiles : s'.files = files) : Accounted s' := by
  refine ⟨P, ?_, ?_, fun q hq fd => ?_⟩
  · rw [htable]
    exact hlist
  · rw [hfiles]
    exact hbalanced
  · rw [hfiles]
    exact hothers q hq fd (h.outside q hq fd)

/-- The calls that keep the references right: a fork loses none, and descriptors are made for
a process in the list. -/
def AccountMeets (s : Procs V) : ProcOp V → Prop
  | .fork cloned => ForkKeeps s cloned
  | .sysFork cloned => (getCurrentProcess s).any s.isForkChild = true ∨ ForkKeeps s cloned
  | .open _ _ => CallerListed s
  | .pipe _ _ => CallerListed s
  | _ => True

instance (s : Procs V) (op : ProcOp V) : Decidable (AccountMeets s op) := by
  unfold AccountMeets
  induction op using ProcOp.casesOn <;> infer_instance

section

variable (h : FilesOk s P) (hlist : IsList s.table.next s.table.processList P)
include h hlist

/-- `SYS_OPEN` on the descriptors of the current process. -/
theorem FilesOk.open (hcaller : CallerListed s) (vp : V) (flags : ℕ) :
    Accounted (sysOpenCurrent s vp flags).1 := by
  unfold sysOpenCurrent
  cases hp : getCurrentProcess s with
  | some p =>
    have hpP := hcaller.mem hlist hp
    refine h.patch hlist _ (h.balanced.sysOpen p vp flags) (fun q hq fd hnone => ?_) rfl rfl
    rw [table_sysOpen_of_ne (fun heq : q = p => hq (heq ▸ hpP)), hnone]
  | none =>
    rcases fileAlloc_cases s.files vp flags with ⟨hnone, -⟩ | ⟨f, hf, hsome⟩
    · rw [hnone]
      exact h.stay hlist rfl rfl
    · rw [hsome]
      have hsame := Files.SameOpen.release hf ⟨some vp, 0, flags, 1⟩
      exact h.patch hlist _ (hsame.excess.trans h.balanced) (fun _ _ _ hnone => hnone) rfl rfl

/-- `SYS_CLOSE`, `SYS_DUP` and `SYS_PIPE`. -/
theorem FilesOk.onCurrent
    {call : Files kmallocRegionSize V → PcbPtr → Files kmallocRegionSize V × ℤ}
    (hbalanced : ∀ p, (call s.files p).1.Balanced)
    (hothers : ∀ p, getCurrentProcess s = some p → ∀ q ∉ P, ∀ fd,
      s.files.table q fd = none → (call s.files p).1.table q fd = none) :
    Accounted (onCurrentFiles s call).1 := by
  unfold onCurrentFiles
  cases hp : getCurrentProcess s with
  | none => exact h.stay hlist rfl rfl
  | some p => exact h.patch hlist _ (hbalanced p) (hothers p hp) rfl rfl

/-- `exec_process` closes the descriptors from 3 on. -/
theorem FilesOk.exec (outcome : ExecEnd) : Accounted (execProcess s outcome).1 := by
  unfold execProcess
  cases getCurrentProcess s with
  | none => exact h.stay hlist rfl rfl
  | some p =>
    have hclose : ∀ s' : Procs V, s'.table = s.table → s'.files = fdCloseFrom 3 s.files p →
        Accounted s' := by
      intro s' htable hfiles
      refine h.patch hlist _ (h.balanced.fdCloseFrom 3 p) (fun q hq fd hnone => ?_) htable hfiles
      rw [table_fdCloseFrom, hnone, ite_self]
    cases outcome with
    | notFound => exact h.stay hlist rfl rfl
    | readFailed => exact h.stay hlist rfl rfl
    | noMm => exact h.stay hlist rfl rfl
    | loadFailed => exact h.stay hlist rfl rfl
    | loaded entry =>
      dsimp only
      cases s.mainThread p with
      | none => exact hclose _ rfl rfl
      | some t => exact hclose _ rfl rfl

end

/-- One call that meets the condition keeps the references right. -/
theorem FilesOk.call (h : FilesOk s P) (hok : TreeOk s P kids) (tty : V) (op : ProcOp V)
    (hmeets : AccountMeets s op) : Accounted (s.call tty op) := by
  have hlist := hok.tree.list
  cases op with
  | createProcess entry mm => exact h.createProcess hok tty entry mm
  | createThread pid entry =>
    simp only [Procs.call]
    rcases createThread_cases s (s.table.findProcessByPid pid) entry with
      hpanic | hnone | ⟨t, k, ctx, hsome, -, -⟩
    · rw [hpanic]
      exact h.stay hlist rfl rfl
    · rw [hnone]
      exact h.stay hlist rfl rfl
    · rw [hsome]
      exact h.stay hlist rfl rfl
  | fork cloned => exact h.forkProcess hok cloned hmeets
  | sysFork cloned =>
    simp only [Procs.call]
    rcases hmeets with hchild | hkeeps
    · obtain ⟨isForkChild, heq⟩ := sysFork_of_child s cloned hchild
      rw [heq]
      exact h.stay hlist rfl rfl
    rcases sysFork_cases s cloned with heq | ⟨isForkChild, heq⟩
    · rw [heq]
      exact h.forkProcess hok cloned hkeeps
    · rw [heq]
      exact h.stay hlist rfl rfl
  | yield ctx => exact h.stay hlist rfl rfl
  | tick r => exact h.stay hlist rfl rfl
  | exit code ctx =>
    obtain ⟨exitCode, heq⟩ := call_exit tty s code ctx
    rw [heq]
    exact threadExit (s := { s with exitCode := exitCode }) (h.congr rfl)
      ⟨hok.tree, hok.pos, hok.owner, hok.dead⟩ ctx
  | waitpid pid options ctx => exact h.waitpid hok pid options ctx
  | exec outcome => exact h.exec hlist outcome
  | «open» vp flags => exact h.open hlist hmeets vp flags
  | close fd =>
    refine h.onCurrent hlist (fun p => h.balanced.fdClose p fd) fun p _ q _ gd hnone => ?_
    rw [table_fdClose, hnone, ite_self]
  | dup fd =>
    refine h.onCurrent hlist (fun p => h.balanced.fdDup p fd) fun p _ q hq gd hnone => ?_
    by_cases hqp : q = p
    · -- A process outside the list has no descriptor to duplicate.
      subst hqp
      have hget : fdGet s.files q fd = none := by
        unfold fdGet
        split_ifs
        · exact h.outside q hq _
        · rfl
      unfold fdDup
      rw [hget]
      exact hnone
    · rw [table_fdDup_of_ne hqp, hnone]
  | pipe rd wr =>
    refine h.onCurrent hlist (fun p => h.balanced.pipeCreate p rd wr) fun p hp q hq gd hnone => ?_
    have hpP := CallerListed.mem hmeets hlist hp
    rw [table_pipeCreate_of_ne (fun heq : q = p => hq (heq ▸ hpP)), hnone]

/-- The tree and the files. -/
def AccountOk (s : Procs V) : Prop := ∃ P kids, TreeOk s P kids ∧ FilesOk s P

theorem AccountOk.step (h : AccountOk s) (tty : V) (op : ProcOp V) (hmeets : AccountMeets s op) :
    AccountOk (procStep tty s op) := by
  unfold procStep
  cases s.halted with
  | true => exact h
  | false =>
    obtain ⟨P, kids, hok, hfiles⟩ := h
    obtain ⟨Q, hlist, hfiles'⟩ := hfiles.call hok tty op hmeets
    have htree : ∃ P' kids', TreeOk (s.call tty op) P' kids' := by
      rcases hok.call tty op with ⟨P', kids', hok', -⟩ | ⟨code, ctx, d, P', kids', -, -, hok', -⟩
      · exact ⟨P', kids', hok'⟩
      · exact ⟨P', kids', hok'⟩
    obtain ⟨P', kids', hok'⟩ := htree
    obtain rfl : P' = Q := hok'.tree.list.unique hlist
    exact ⟨P', kids', hok', hfiles'⟩

/-- Open-file accounting. In every run whose calls meet the condition, the references of every
file are the descriptors of the processes in the list that have it, and a file without one is
free. -/
theorem open_files_accounted (tty : V) (ops : List (ProcOp V))
    (hmeets : Guarded (procStep tty) AccountMeets Procs.boot ops) :
    let s := run (procStep tty) Procs.boot ops
    ∃ P, IsList s.table.next s.table.processList P ∧ ∀ f,
      (s.files.pool f).refcount =
        ((Finset.univ : Finset (PcbPtr × Fin 32)).filter fun x =>
          x.1 ∈ P ∧ s.files.table x.1 x.2 = some f).card ∧
      ((∀ p ∈ P, ∀ fd, s.files.table p fd ≠ some f) → (s.files.pool f).refcount = 0) := by
  intro s
  have hboot : AccountOk (Procs.boot : Procs V) :=
    ⟨[], fun _ => [], treeOk_boot, Files.balanced_empty kmallocRegionSize V, fun _ _ _ => rfl⟩
  obtain ⟨P, kids, hok, hfiles⟩ := run_invariant (I := AccountOk)
    (fun _ op hs hop => hs.step tty op hop) hboot hmeets
  have hslots : ∀ f, ((Finset.univ : Finset (PcbPtr × Fin 32)).filter fun x =>
      x.1 ∈ P ∧ s.files.table x.1 x.2 = some f) =
        places (fun x : PcbPtr × Fin 32 => s.files.table x.1 x.2) f := by
    intro f
    refine Finset.filter_congr fun x _ => and_iff_right_of_imp fun hx => ?_
    by_contra hout
    rw [hfiles.outside x.1 hout x.2] at hx
    cases hx
  have hcount : ∀ f, (s.files.pool f).refcount =
      ((Finset.univ : Finset (PcbPtr × Fin 32)).filter fun x =>
        x.1 ∈ P ∧ s.files.table x.1 x.2 = some f).card := by
    intro f
    have hexcess : (s.files.pool f).refcount -
        (places (fun x : PcbPtr × Fin 32 => s.files.table x.1 x.2) f).card = 0 :=
      congrFun hfiles.balanced f
    rw [hslots f]
    omega
  refine ⟨P, hok.tree.list, fun f => ⟨hcount f, fun hno => ?_⟩⟩
  rw [hcount f, Finset.filter_false_of_mem fun x _ hx => hno x.1 hx.1 x.2 hx.2]
  rfl

/-- Init opens a file, duplicates the descriptor, makes a pipe, forks and execs; the child, which
shares the files, exits and is reaped. -/
def sharedRun : List (ProcOp Unit) :=
  [.createProcess 0 true, .yield zeroContext, .open () 0, .dup 3, .pipe (some ()) (some ()),
    .fork true, .exec (.loaded 0), .yield zeroContext, .exit none zeroContext,
    .waitpid (-1) 0 zeroContext, .close 1]

theorem open_files_accounted_shared :
    let s := run (procStep ()) Procs.boot sharedRun
    Guarded (procStep ()) AccountMeets Procs.boot sharedRun ∧
      ∃ P, IsList s.table.next s.table.processList P ∧ ∀ f,
        (s.files.pool f).refcount =
          ((Finset.univ : Finset (PcbPtr × Fin 32)).filter fun x =>
            x.1 ∈ P ∧ s.files.table x.1 x.2 = some f).card ∧
        ((∀ p ∈ P, ∀ fd, s.files.table p fd ≠ some f) → (s.files.pool f).refcount = 0) := by
  refine ⟨?hmeets, open_files_accounted () sharedRun ?hmeets⟩
  decide

/-- A fork whose address space cannot be cloned leaves the references that it took: the console
has two, and the only process in the list has one descriptor for it. -/
theorem fork_leaks_references :
    let s := run (procStep ()) (Procs.boot : Procs Unit) [.createProcess 0 true,
      .yield zeroContext, .fork false]
    (s.files.pool 0).refcount = 2 ∧ s.table.processList.bind s.table.next = none ∧
      s.table.processList.map (fun p => (List.finRange 32).countP fun fd =>
        s.files.table p fd == some 0) = some 1 := by
  decide

end Tomahawk.Proc
