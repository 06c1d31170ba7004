import Tomahawk.Lib.Queue
import Tomahawk.Lib.Run

/-!
# Preemption

The round-robin scheduler of `scheduler.c` under timer ticks. A tick saves the registers of
`cpu_context_t` from the interrupted frame, queues the running thread and loads the same
registers of the next one into the frame. The other registers of the frame stay as the tick
found them. No signal is pending, so `signal_deliver` does nothing.
-/

namespace Tomahawk.Proc

open Function Tomahawk.Lib

/-- `regs_t`, the frame that an interrupt saves and its return installs. -/
structure Regs where
  rax : UInt64
  rbx : UInt64
  rcx : UInt64
  rdx : UInt64
  rsi : UInt64
  rdi : UInt64
  rbp : UInt64
  r8 : UInt64
  r9 : UInt64
  r10 : UInt64
  r11 : UInt64
  r12 : UInt64
  r13 : UInt64
  r14 : UInt64
  r15 : UInt64
  intNo : UInt64
  errCode : UInt64
  rip : UInt64
  cs : UInt64
  rflags : UInt64
  rsp : UInt64
  ss : UInt64
  deriving DecidableEq

/-- `cpu_context_t` -/
structure CpuContext where
  rip : UInt64
  rsp : UInt64
  rbp : UInt64
  rbx : UInt64
  r12 : UInt64
  r13 : UInt64
  r14 : UInt64
  r15 : UInt64
  deriving DecidableEq

/-- `thread_state_t` -/
inductive ThreadState where
  | ready
  | running
  | blocked
  | sleeping
  | zombie
  deriving DecidableEq

/-- The contexts and states of the threads, the ready queue and the running thread. -/
structure Scheduler (T : Type*) where
  context : T → CpuContext
  state : T → ThreadState
  ready : Queue T
  current : Option T

/-- What `save_context_from_regs` stores. -/
def Regs.context (r : Regs) : CpuContext :=
  ⟨r.rip, r.rsp, r.rbp, r.rbx, r.r12, r.r13, r.r14, r.r15⟩

/-- `load_regs_from_context` -/
def loadRegsFromContext (r : Regs) (c : CpuContext) : Regs :=
  { r with
    rip := c.rip
    rsp := c.rsp
    rbp := c.rbp
    rbx := c.rbx
    r12 := c.r12
    r13 := c.r13
    r14 := c.r14
    r15 := c.r15 }

variable {T : Type*} [DecidableEq T]

/-- `scheduler_init`, for threads with the given contexts. -/
def schedulerInit (context : T → CpuContext) : Scheduler T where
  context := context
  state := fun _ => .ready
  ready := ⟨fun _ => none, none, none⟩
  current := none

/-- `scheduler_add_thread` -/
def schedulerAddThread (s : Scheduler T) (t : T) : Scheduler T :=
  { s with state := update s.state t .ready, ready := s.ready.push t }

/-- `save_context_from_regs` -/
def saveContextFromRegs (s : Scheduler T) (t : T) (r : Regs) : Scheduler T :=
  { s with context := update s.context t r.context }

/-- Run the thread that left the queue. -/
def Scheduler.switchTo (s : Scheduler T) (next : T) : Scheduler T :=
  { s with current := some next, state := update s.state next .running }

/-- `scheduler_tick`: the scheduler after it and the frame that the interrupt returns to. -/
def schedulerTick (s : Scheduler T) (r : Regs) : Scheduler T × Regs :=
  match s.current with
  | none =>
    match s.ready.pop with
    | (_, none) => (s, r)
    | (ready, some next) =>
      (Scheduler.switchTo { s with ready := ready } next,
        loadRegsFromContext r (s.context next))
  | some current =>
    let s := saveContextFromRegs s current r
    match s.ready.pop with
    | (_, none) => (s, r)
    | (ready, some next) =>
      let s := { s with ready := ready }
      let s := if s.state current = .running ∨ s.state current = .ready then
          schedulerAddThread s current
        else s
      (s.switchTo next, loadRegsFromContext r (s.context next))

/-- A thread can see every register of the frame but the number and code of the interrupt. -/
def Regs.Agrees (r f : Regs) : Prop :=
  { r with intNo := 0, errCode := 0 } = { f with intNo := 0, errCode := 0 }

instance (r f : Regs) : Decidable (r.Agrees f) :=
  inferInstanceAs
    (Decidable ({ r with intNo := 0, errCode := 0 } = { f with intNo := 0, errCode := 0 }))

/-- The frames agree on the registers that a context does not hold. -/
def Regs.AgreesUnsaved (r f : Regs) : Prop :=
  r.rax = f.rax ∧ r.rcx = f.rcx ∧ r.rdx = f.rdx ∧ r.rsi = f.rsi ∧ r.rdi = f.rdi ∧
    r.r8 = f.r8 ∧ r.r9 = f.r9 ∧ r.r10 = f.r10 ∧ r.r11 = f.r11 ∧
    r.cs = f.cs ∧ r.rflags = f.rflags ∧ r.ss = f.ss

instance (r f : Regs) : Decidable (r.AgreesUnsaved f) := by
  unfold Regs.AgreesUnsaved
  infer_instance

/-- The scheduler, with the frame of each thread at its last preemption. -/
structure PreemptRun (T : Type*) where
  sched : Scheduler T
  saved : T → Option Regs

/-- A tick that interrupts the frame `r`. It preempts the running thread if another one runs
after it. -/
def preemptStep (w : PreemptRun T) (r : Regs) : PreemptRun T where
  sched := (schedulerTick w.sched r).1
  saved :=
    match w.sched.current with
    | none => w.saved
    | some t =>
      if (schedulerTick w.sched r).1.current = some t then w.saved
      else update w.saved t (some r)

/-- The runnable threads are queued in some order, and none has run. -/
def PreemptRun.start (context : T → CpuContext) (threads : List T) : PreemptRun T where
  sched := threads.foldl schedulerAddThread (schedulerInit context)
  saved := fun _ => none

/-- A tick in the frame `r` takes the processor from another thread and gives it to `t`. -/
def Resumes (w : PreemptRun T) (r : Regs) (t : T) : Prop :=
  w.sched.current ≠ some t ∧ (schedulerTick w.sched r).1.current = some t

instance (w : PreemptRun T) (r : Regs) (t : T) : Decidable (Resumes w r t) := instDecidableAnd

/-- Loading the context of a preempted thread restores the frame of the preemption if and
only if the other registers are as they were. -/
theorem agrees_loadRegs (r f : Regs) :
    (loadRegsFromContext r f.context).Agrees f ↔ r.AgreesUnsaved f := by
  simp only [Regs.Agrees, loadRegsFromContext, Regs.context, Regs.AgreesUnsaved, Regs.mk.injEq,
    true_and]

/-- The ready queue is the list `l`, without the running thread, and the context of each
queued thread is that of its preemption. -/
structure PreemptOk (w : PreemptRun T) (l : List T) : Prop where
  queue : w.sched.ready.Is l
  current : ∀ t ∈ l, w.sched.current ≠ some t
  running : ∀ t, w.sched.current = some t → w.sched.state t = .running
  saved : ∀ t ∈ l, ∀ f, w.saved t = some f → w.sched.context t = f.context

/-- With no thread ready, the interrupted frame is returned to. -/
theorem schedulerTick_nil {s : Scheduler T} (hqueue : s.ready.Is []) (r : Regs) :
    ∃ s', schedulerTick s r = (s', r) ∧ s'.ready = s.ready ∧ s'.current = s.current ∧
      s'.state = s.state := by
  have hpop := hqueue.pop.1
  unfold schedulerTick saveContextFromRegs
  generalize hp : s.ready.pop = p at hpop
  obtain ⟨q, next⟩ := p
  obtain rfl : next = none := hpop
  cases hcurrent : s.current with
  | none => exact ⟨s, rfl, rfl, hcurrent, rfl⟩
  | some t =>
    simp only [hp]
    exact ⟨_, rfl, rfl, rfl, rfl⟩

section

variable {w : PreemptRun T} {l : List T} {r f : Regs} {t n : T}

/-- A tick with a thread in the queue saves the running thread, hangs it behind the queue and runs
the first one. -/
theorem PreemptOk.tick (h : PreemptOk w (n :: l)) (r : Regs) :
    ∃ s', schedulerTick w.sched r = (s', loadRegsFromContext r (w.sched.context n)) ∧
      s'.ready.Is (l ++ w.sched.current.toList) ∧ s'.current = some n ∧ s'.state n = .running ∧
      ∀ u, s'.context u = if w.sched.current = some u then r.context else w.sched.context u := by
  obtain ⟨hpop, hrest⟩ := h.queue.pop
  unfold schedulerTick saveContextFromRegs
  generalize hp : w.sched.ready.pop = p at hpop hrest
  obtain ⟨q, next⟩ := p
  obtain rfl : next = some n := hpop
  cases hcurrent : w.sched.current with
  | none =>
    refine ⟨_, rfl, ?_, rfl, update_self _ _ _, fun u => by simp [Scheduler.switchTo]⟩
    simpa [Scheduler.switchTo] using hrest
  | some t =>
    have ht : t ∉ n :: l := fun hmem => h.current t hmem hcurrent
    have hcontext : update w.sched.context t r.context n = w.sched.context n :=
      update_of_ne (fun heq => ht (by simp [heq])) _ _
    simp only [hp, h.running t hcurrent, true_or, if_true]
    refine ⟨Scheduler.switchTo (schedulerAddThread { w.sched with
      context := update w.sched.context t r.context
      ready := q } t) n, Prod.ext rfl (congrArg (loadRegsFromContext r) hcontext),
      hrest.push fun hmem => ht (.tail _ hmem), rfl, update_self _ _ _, fun u => ?_⟩
    simp [Scheduler.switchTo, schedulerAddThread, update_apply, eq_comm]

/-- One tick keeps the queue and the saved contexts. -/
theorem PreemptOk.step (h : PreemptOk w l) (r : Regs) : ∃ l', PreemptOk (preemptStep w r) l' := by
  cases l with
  | nil =>
    obtain ⟨s', htick, hready, hcurrent, hstate⟩ := schedulerTick_nil h.queue r
    refine ⟨[], ?_, by simp, ?_, by simp⟩
    · simpa only [preemptStep, htick, hready] using h.queue
    · simp only [preemptStep, htick, hcurrent, hstate]
      exact h.running
  | cons n l =>
    have hnl : n ∉ l := (List.nodup_cons.mp h.queue.nodup).1
    have hother : w.sched.current ≠ some n := h.current n List.mem_cons_self
    obtain ⟨s', htick, hready, hcurrent, hstate, hcontext⟩ := h.tick r
    have hsaved : ∀ u, (preemptStep w r).saved u =
        if w.sched.current = some u then some r else w.saved u := by
      intro u
      cases hc : w.sched.current with
      | none => simp [preemptStep, hc]
      | some t =>
        have hnt : n ≠ t := fun heq => hother (by rw [hc, heq])
        simp [preemptStep, htick, hcurrent, hc, hnt, update_apply, eq_comm]
    refine ⟨l ++ w.sched.current.toList, ?_, fun u hu => ?_, fun u hu => ?_, fun u hu f hf => ?_⟩
    · simpa only [preemptStep, htick] using hready
    · simp only [preemptStep, htick, hcurrent]
      rintro heq
      cases heq
      rcases List.mem_append.mp hu with hu | hu
      · exact hnl hu
      · exact hother (Option.mem_toList.mp hu)
    · simp only [preemptStep, htick, hcurrent] at hu ⊢
      cases hu
      exact hstate
    · rw [hsaved] at hf
      simp only [preemptStep, htick, hcontext]
      split_ifs at hf ⊢ with hut
      · -- The preempted thread was saved just now.
        rw [Option.some.inj hf]
      · have hul : u ∈ l := by simpa [hut] using hu
        exact h.saved u (.tail _ hul) f hf

/-- The frame installed for a preempted thread has the saved registers of its preemption. -/
theorem PreemptOk.resume (h : PreemptOk w l) (hresumes : Resumes w r t)
    (hsaved : w.saved t = some f) :
    (schedulerTick w.sched r).2 = loadRegsFromContext r f.context := by
  obtain ⟨hother, hnext⟩ := hresumes
  cases l with
  | nil =>
    obtain ⟨s', htick, -, hcurrent, -⟩ := schedulerTick_nil h.queue r
    rw [htick] at hnext
    exact absurd (hcurrent.symm.trans hnext) hother
  | cons n l =>
    obtain ⟨s', htick, -, hcurrent, -⟩ := h.tick r
    rw [htick] at hnext ⊢
    obtain rfl : n = t := Option.some.inj (hcurrent.symm.trans hnext)
    rw [h.saved n List.mem_cons_self f hsaved]

/-- Distinct threads are queued in order. -/
theorem preemptOk_start (context : T → CpuContext) {threads : List T} (hnodup : threads.Nodup) :
    PreemptOk (PreemptRun.start context threads) threads := by
  have hadd : ∀ (l : List T) (s : Scheduler T) (q : List T), (q ++ l).Nodup → s.ready.Is q →
      s.current = none → (l.foldl schedulerAddThread s).ready.Is (q ++ l) ∧
        (l.foldl schedulerAddThread s).current = none := by
    intro l
    induction l with
    | nil =>
      intro s q _ hq hcurrent
      simpa using ⟨hq, hcurrent⟩
    | cons t l ih =>
      intro s q hnodup hq hcurrent
      have ht : t ∉ q := by
        intro hmem
        exact (List.nodup_append.mp hnodup).2.2 t hmem t (by simp) rfl
      have hrest := ih (schedulerAddThread s t) (q ++ [t]) (by simpa using hnodup)
        (hq.push ht) hcurrent
      simpa using hrest
  obtain ⟨hqueue, hcurrent⟩ := hadd threads (schedulerInit context) [] hnodup ⟨rfl, rfl⟩ rfl
  refine ⟨hqueue, fun t _ => ?_, fun t ht => ?_, fun t _ f hf => ?_⟩
  · simp [PreemptRun.start, hcurrent]
  · simp [PreemptRun.start, hcurrent] at ht
  · simp [PreemptRun.start] at hf

end

/-- Preemption transparency. After any sequence of ticks, a tick that resumes a thread which
was preempted in the frame `f` installs a frame that the thread cannot tell from `f`, if and
only if the frame it interrupts has the same values in the registers that are not saved. -/
theorem preemption_transparent_iff (context : T → CpuContext) (threads : List T)
    (hnodup : threads.Nodup) (ticks : List Regs) (r f : Regs) (t : T)
    (hresumes : Resumes (run preemptStep (PreemptRun.start context threads) ticks) r t)
    (hsaved : (run preemptStep (PreemptRun.start context threads) ticks).saved t = some f) :
    (schedulerTick (run preemptStep (PreemptRun.start context threads) ticks).sched r).2.Agrees f ↔
      r.AgreesUnsaved f := by
  have hstart : ∃ l, PreemptOk (PreemptRun.start context threads) l :=
    ⟨threads, preemptOk_start context hnodup⟩
  have hrun : ∃ l, PreemptOk (run preemptStep (PreemptRun.start context threads) ticks) l := by
    refine run_preserves (I := fun w => ∃ l, PreemptOk w l) (fun w r h => ?_) hstart
    obtain ⟨l, hl⟩ := h
    exact hl.step r
  obtain ⟨l, hl⟩ := hrun
  rw [hl.resume hresumes hsaved]
  exact agrees_loadRegs r f

/-- A frame with all registers zero but `rax`. -/
def raxFrame (rax : UInt64) : Regs :=
  ⟨rax, 0, 0, 0, 0, 0, 0, 0, 0, 0, 0, 0, 0, 0, 0, 32, 0, 0, 0, 0, 0, 0⟩

/-- Two threads that have both been started, and the first was preempted with `rax` one. -/
def twoStarted : PreemptRun (Fin 2) :=
  run preemptStep (PreemptRun.start (fun _ => (raxFrame 0).context) (List.finRange 2))
    [raxFrame 0, raxFrame 1]

theorem preemption_transparent_iff_sameRax :
    Resumes twoStarted (raxFrame 1) 0 ∧ twoStarted.saved 0 = some (raxFrame 1) ∧
      ((schedulerTick twoStarted.sched (raxFrame 1)).2.Agrees (raxFrame 1) ↔
        (raxFrame 1).AgreesUnsaved (raxFrame 1)) :=
  ⟨by decide, by decide, preemption_transparent_iff _ _ (by decide) _ _ _ 0 (by decide)
    (by decide)⟩

/-- The second thread has `rax` two at the tick, and the first one resumes with it. -/
theorem preemption_loses_rax :
    Resumes twoStarted (raxFrame 2) 0 ∧ twoStarted.saved 0 = some (raxFrame 1) ∧
      (schedulerTick twoStarted.sched (raxFrame 2)).2.rax = 2 ∧
      ¬ (schedulerTick twoStarted.sched (raxFrame 2)).2.Agrees (raxFrame 1) := by
  decide

end Tomahawk.Proc
