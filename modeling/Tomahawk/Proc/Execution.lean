import Tomahawk.Proc.ReadyQueue
import Tomahawk.Proc.Lifecycle

/-!
# Threads and the processes they run for

A thread may run when it is the current one or in the ready queue. An exit marks the process of
a main thread as a zombie and takes only that thread out of the scheduler, so what may run
afterwards depends on the other threads of the process and on the thread the exit wakes.
-/

namespace Tomahawk.Proc

open Function Tomahawk.Lib

variable {V : Type*} {s s' : Procs V} {l l' new : List TcbPtr} {P : List PcbPtr}
  {kids : PcbPtr → List PcbPtr} {t u : TcbPtr} {d p : PcbPtr} {op : ProcOp V}

/-- The thread `t` belongs to a process that has not exited. -/
def RunsFor (s : Procs V) (t : TcbPtr) : Prop := ∃ p, s.process t = some p ∧ ¬ s.table.Dead p

/-- Every thread that may run belongs to a process that has not exited. -/
def AllRunFor (s : Procs V) (l : List TcbPtr) : Prop :=
  ∀ t, s.sched.current = some t ∨ t ∈ l → RunsFor s t

/-- What may run after a call could run before it, or arrives. -/
theorem Served.mayRun {a b : Scheduler TcbPtr} (h : Served a b l l' new)
    (ht : b.current = some t ∨ t ∈ l') : (a.current = some t ∨ t ∈ l) ∨ t ∈ new := by
  rcases h with ⟨hcurrent, rfl⟩ | ⟨n, hn, -, hqueue⟩
  · rw [hcurrent, List.mem_append] at ht
    tauto
  · have hmem : t ∈ l ++ new := by
      rw [hqueue, List.mem_cons]
      refine ht.imp_left fun hcurrent => ?_
      exact Option.some.inj (hcurrent.symm.trans hn)
    rcases List.mem_append.mp hmem with hl | hnew
    · exact .inl (.inr hl)
    · exact .inr hnew

/-- The thread that the exit of the process `d` wakes. -/
def wokenBy (s : Procs V) (d : PcbPtr) : Option TcbPtr :=
  ((s.table.parent d).bind s.waitQueue).filter fun w => s.sched.state w == .blocked

/-- The exits that stop a process: no other thread of the process is ready, the thread that is
woken belongs to another process that has not exited, and there is a thread to switch to. -/
def ExitStops (s : Procs V) : Prop :=
  match s.sched.current with
  | none => True
  | some t =>
    match s.process t with
    | none => True
    | some d =>
      s.mainThread d = some t →
        walkFind s.sched.ready.next (fun u => s.process u == some d) kmallocRegionSize
          s.sched.ready.head = none ∧
        (wokenBy s d).all (fun w =>
          (s.process w).any fun q => q != d && !decide (s.table.Dead q)) = true ∧
        (s.sched.ready.head.isSome || (wokenBy s d).isSome) = true

instance (s : Procs V) : Decidable (ExitStops s) := by
  unfold ExitStops
  induction s.sched.current using Option.casesOn with
  | none => infer_instance
  | some t =>
    dsimp only
    induction s.process t using Option.casesOn <;> infer_instance

/-- The calls that let no thread run for a dead process: a new thread is for a process in the
list that is not a zombie, and the exit of a main thread stops its process. -/
def ExecutionMeets (s : Procs V) : ProcOp V → Prop
  | .createThread pid _ =>
    (s.table.findProcessByPid pid).any (fun p => !s.table.isZombie p) = true
  | .exit _ _ => ExitStops s
  | _ => True

instance (s : Procs V) (op : ProcOp V) : Decidable (ExecutionMeets s op) := by
  unfold ExecutionMeets
  induction op using ProcOp.casesOn <;> infer_instance

/-- A call other than the exit of a main thread. -/
theorem AllRunFor.noExit (h : AllRunFor s l) (hok : TreeOk s P kids) (hqueued : Queued s l)
    (hqueued' : Queued s' l') (howners : Owners s s' op)
    (hdead : ∀ x, s'.table.Dead x → s.table.Dead x) (hmeets : ExecutionMeets s op)
    (hserved : Served s.sched s'.sched l l' new)
    (hnew : ∀ u ∈ new, s.sched.current = some u ∨ u ∉ s.threads) : AllRunFor s' l' := by
  have hkeep : ∀ u ∈ s.threads, RunsFor s u → RunsFor s' u := by
    rintro u hu ⟨p, hp, hlives⟩
    exact ⟨p, (howners.1 u hu).2.trans hp, fun hx => hlives (hdead p hx)⟩
  have hthread : ∀ u, s.sched.current = some u ∨ u ∈ l → u ∈ s.threads := by
    rintro u (hcurrent | hmem)
    · exact (hqueued.fifo.current u hcurrent).1
    · exact ((hqueued.fifo.mem u).mp hmem).1
  intro u hu
  have hthread' : u ∈ s'.threads := by
    rcases hu with hcurrent | hmem
    · exact (hqueued'.fifo.current u hcurrent).1
    · exact ((hqueued'.fifo.mem u).mp hmem).1
  by_cases hold : u ∈ s.threads
  · have hmay : s.sched.current = some u ∨ u ∈ l := by
      rcases hserved.mayRun hu with hmay | harrived
      · exact hmay
      · exact .inl ((hnew u harrived).resolve_right fun hfresh => hfresh hold)
    exact hkeep u hold (h u hmay)
  · rcases howners.2 u hthread' hold with ⟨pid, entry, rfl, howner⟩ | ⟨p, hp, howner⟩
    · have hany : (s.table.findProcessByPid pid).any (fun p => !s.table.isZombie p) = true := hmeets
      cases hfind : s.table.findProcessByPid pid with
      | none =>
        rw [hfind] at hany
        cases hany
      | some p =>
        refine ⟨p, howner.trans hfind, fun hx => ?_⟩
        have hzombie : s.table.isZombie p = false := by simpa [hfind] using hany
        rcases hdead p hx with hzombie' | hreaped
        · rw [hzombie] at hzombie'
          cases hzombie'
        · exact (hok.tree.gone p hreaped).1 (hok.tree.findProcessByPid hfind).1
    · refine ⟨p, howner, fun hx => ?_⟩
      have := hok.dead p (hdead p hx)
      omega

/-- The exit of a main thread that stops its process. -/
theorem AllRunFor.exits (h : AllRunFor s l) (hqueued : Queued s l) (hrunning : s.sched.Running)
    (hok : TreeOk s P kids) (hmain : RunsMain s d) (hmeets : ExitStops s) (ctx : CpuContext) :
    ∃ l', Queued (schedulerThreadExit s ctx) l' ∧ (schedulerThreadExit s ctx).sched.Running ∧
      AllRunFor (schedulerThreadExit s ctx) l' := by
  obtain ⟨new, hnew, hcases⟩ := hqueued.threadExit_cases hrunning ctx
  obtain ⟨P', kids', -, hexits, -⟩ := hok.threadExit_main hmain ctx
  have hprocess := (schedulerThreadExit_threads s ctx).2
  have hwoken : ∀ u, u ∈ new ↔ wokenBy s d = some u := by
    intro u
    rw [hnew u]
    simp only [wokenBy, Option.filter_eq_some_iff, Option.bind_eq_some_iff, beq_iff_eq]
    constructor
    · rintro ⟨d', q, hmain', hparent, hwait, hblocked⟩
      obtain rfl : d' = d := hmain'.unique hmain
      exact ⟨⟨q, hexits.parent ▸ hparent, hwait⟩, hblocked⟩
    · rintro ⟨⟨q, hparent, hwait⟩, hblocked⟩
      exact ⟨d, q, hmain, hexits.parent.trans hparent, hwait, hblocked⟩
  obtain ⟨t, hcurrent, hproc, hthread⟩ := hmain
  unfold ExitStops at hmeets
  simp only [hcurrent, hproc] at hmeets
  obtain ⟨hothers, hlives, hnext⟩ := hmeets hthread
  rw [walkFind_eq hqueued.fifo.queue.links (length_le_region hqueued.fifo.queue.nodup),
    List.find?_eq_none] at hothers
  have hready : ∀ u ∈ l ++ new, ∃ p, s.process u = some p ∧ p ≠ d ∧ ¬ s.table.Dead p := by
    intro u hu
    rcases List.mem_append.mp hu with hmem | hmem
    · obtain ⟨p, hp, hlive⟩ := h u (.inr hmem)
      refine ⟨p, hp, fun heq => hothers u hmem ?_, hlive⟩
      rw [hp, heq]
      exact beq_self_eq_true _
    · rw [(hwoken u).mp hmem] at hlives
      cases hp : s.process u with
      | none => simp [hp] at hlives
      | some p => exact ⟨p, rfl, by simpa [hp] using hlives⟩
  rcases hcases with ⟨hempty, -⟩ | ⟨n, rest, hcons, hqueued', hn, -, hruns, -⟩
  · -- There is a thread to switch to.
    exfalso
    obtain ⟨rfl, rfl⟩ := List.append_eq_nil_iff.mp hempty
    have hhead : s.sched.ready.head = none := hqueued.fifo.queue.links
    cases hw : wokenBy s d with
    | none => simp [hhead, hw] at hnext
    | some w => exact List.not_mem_nil ((hwoken w).mpr hw)
  · refine ⟨rest, hqueued', hruns, fun u hu => ?_⟩
    have hmem : u ∈ l ++ new := by
      rw [hcons, List.mem_cons]
      exact hu.imp_left fun heq => Option.some.inj (heq.symm.trans hn)
    obtain ⟨p, hp, hpd, hlive⟩ := hready u hmem
    refine ⟨p, by rw [hprocess]; exact hp, fun hdead => ?_⟩
    exact (hexits.dead p hdead).elim hlive hpd

/-- The queue, the tree and the threads that may run. -/
def ExecutionOk (s : Procs V) : Prop :=
  ∃ l P kids, Queued s l ∧ TreeOk s P kids ∧ (s.halted = false → s.sched.Running) ∧ AllRunFor s l

theorem ExecutionOk.step (h : ExecutionOk s) (tty : V) (op : ProcOp V)
    (hmeets : ExecutionMeets s op) : ExecutionOk (procStep tty s op) := by
  unfold procStep
  cases hhalted : s.halted with
  | true => exact h
  | false =>
    obtain ⟨l, P, kids, hqueued, hok, hrunning, hall⟩ := h
    specialize hrunning hhalted
    by_cases hmain : op.isExit = true ∧ ∃ d, RunsMain s d
    · obtain ⟨hexit, d, hmain⟩ := hmain
      cases op <;> try cases hexit
      rename_i code ctx
      obtain ⟨exitCode, heq⟩ := call_exit tty s code ctx
      have hcode : TreeOk { s with exitCode := exitCode } P kids :=
        ⟨hok.tree, hok.pos, hok.owner, hok.dead⟩
      obtain ⟨P', kids', hok', -⟩ := hcode.threadExit_main hmain ctx
      obtain ⟨l', hqueued', hruns, hall'⟩ := AllRunFor.exits (s := { s with exitCode := exitCode })
        hall (hqueued.congr rfl rfl rfl (fun _ _ hw => hw) le_rfl) hrunning hcode hmain hmeets ctx
      rw [heq]
      exact ⟨l', P', kids', hqueued', hok', fun _ => hruns, hall'⟩
    · obtain ⟨l', new, hqueued', hserved, hruns, hnew, howners⟩ := hqueued.call hrunning tty op
      have hno : ∃ P' kids', TreeOk (s.call tty op) P' kids' ∧
          ∀ x, (s.call tty op).table.Dead x → s.table.Dead x := by
        rcases hok.call tty op with
          ⟨P', kids', hok', hno⟩ | ⟨code, ctx, d, P', kids', rfl, hd, -⟩
        · exact ⟨P', kids', hok', hno.dead⟩
        · exact absurd ⟨rfl, d, hd⟩ hmain
      obtain ⟨P', kids', hok', hdead⟩ := hno
      refine ⟨l', P', kids', hqueued', hok', hruns, hall.noExit hok hqueued hqueued' howners hdead
        hmeets hserved fun u hu => ?_⟩
      refine (hnew u hu).imp_right fun harrives => harrives.resolve_right ?_
      rintro ⟨hexit, d, q, hd, -⟩
      exact hmain ⟨hexit, d, hd⟩

/-- No execution on behalf of a dead process. In every run whose calls meet the condition, the
current thread and the threads in the ready queue belong to processes that are neither zombies
nor reaped. -/
theorem no_execution_for_dead (tty : V) (ops : List (ProcOp V))
    (hmeets : Guarded (procStep tty) ExecutionMeets Procs.boot ops) :
    let s := run (procStep tty) Procs.boot ops
    ∃ l, s.sched.ready.Is l ∧ ∀ t, s.sched.current = some t ∨ t ∈ l →
      ∃ p, s.process t = some p ∧ s.table.isZombie p = false ∧ p ∉ s.table.reaped := by
  have hboot : ExecutionOk (Procs.boot : Procs V) := by
    refine ⟨[], [], fun _ => [], queued_boot, treeOk_boot, fun _ t ht => ?_, fun t ht => ?_⟩
    · cases ht
    · rcases ht with ht | ht <;> cases ht
  intro s
  obtain ⟨l, P, kids, hqueued, -, -, hall⟩ := run_invariant (I := ExecutionOk)
    (fun _ op hs hop => hs.step tty op hop) hboot hmeets
  refine ⟨l, hqueued.fifo.queue, fun t ht => ?_⟩
  obtain ⟨p, hp, hlives⟩ := hall t ht
  unfold ProcTable.Dead at hlives
  rw [not_or, Bool.not_eq_true] at hlives
  exact ⟨p, hp, hlives⟩

/-- Init and idle are made, init makes a job with a second thread and waits for it; the second
thread exits before the main one. -/
def jobRun : List (ProcOp Unit) :=
  [.createProcess 0 true, .createProcess 0 true, .yield zeroContext, .createProcess 0 true,
    .createThread 3 0, .waitpid (-1) 0 zeroContext, .yield zeroContext, .yield zeroContext,
    .exit none zeroContext, .yield zeroContext, .exit (some 0) zeroContext, .yield zeroContext,
    .waitpid (-1) 0 zeroContext]

theorem no_execution_for_dead_job :
    Guarded (procStep ()) ExecutionMeets Procs.boot jobRun ∧
      ∃ l, (run (procStep ()) Procs.boot jobRun).sched.ready.Is l ∧
        ∀ t, (run (procStep ()) Procs.boot jobRun).sched.current = some t ∨ t ∈ l →
          ∃ p, (run (procStep ()) Procs.boot jobRun).process t = some p ∧
            (run (procStep ()) Procs.boot jobRun).table.isZombie p = false ∧
              p ∉ (run (procStep ()) Procs.boot jobRun).table.reaped := by
  refine ⟨?hmeets, no_execution_for_dead () jobRun ?hmeets⟩
  decide

/-- The main thread of init exits while its second thread is ready: the second thread is
dispatched and runs for the zombie. -/
theorem zombie_runs :
    let s := run (procStep ()) (Procs.boot : Procs Unit) [.createProcess 0 true, .createThread 1 0,
      .yield zeroContext, .exit none zeroContext]
    s.halted = false ∧ (s.sched.current.bind s.process).map s.table.isZombie = some true := by
  decide

end Tomahawk.Proc
