import Tomahawk.Proc.Process

/-!
# The ready queue

The ready queue refines a list of threads: they arrive at its end and leave it in front, when
they are dispatched. The queue holds exactly the threads that are ready.
-/

namespace Tomahawk.Proc

open Function Tomahawk.Lib

/-! ## The scheduler -/

section Scheduler

variable {T : Type*} {s s' : Scheduler T} {threads l rest new : List T} {t n : T}

/-- The ready queue is the list `l` of the ready threads, and the current thread is another
one. -/
structure Scheduler.Fifo (s : Scheduler T) (threads l : List T) : Prop where
  queue : s.ready.Is l
  mem : ∀ t, t ∈ l ↔ t ∈ threads ∧ s.state t = .ready
  current : ∀ t, s.current = some t → t ∈ threads ∧ s.state t ≠ .ready

/-- The current thread, if there is one, is in the state of a running thread. -/
def Scheduler.Running (s : Scheduler T) : Prop := ∀ t, s.current = some t → s.state t = .running

/-- The threads `new` arrive at the end of the queue, and either the current thread stays or
the first of the queue is dispatched. -/
def Served (s s' : Scheduler T) (l l' new : List T) : Prop :=
  (s'.current = s.current ∧ l' = l ++ new) ∨
    ∃ t, s'.current = some t ∧ s.current ≠ some t ∧ l ++ new = t :: l'

theorem Served.same (hcurrent : s'.current = s.current) : Served s s' l l [] :=
  .inl ⟨hcurrent, (List.append_nil l).symm⟩

theorem Scheduler.Fifo.ne_current (h : s.Fifo threads l) (ht : t ∈ l) : s.current ≠ some t := by
  intro hcurrent
  exact (h.current t hcurrent).2 ((h.mem t).mp ht).2

/-- The first thread of the queue is dispatched, after others may have arrived. -/
theorem Scheduler.Fifo.dispatch (h : s.Fifo threads (n :: rest)) (hqueue : s'.ready.Is (rest ++ new))
    (hcurrent : s'.current = some n) (hn : s'.state n = .running)
    (hnew : ∀ u ∈ new, u ∈ threads ∧ s'.state u = .ready)
    (hold : ∀ u, u ≠ n → u ∉ new → s'.state u = s.state u) :
    s'.Fifo threads (rest ++ new) ∧ Served s s' (n :: rest) (rest ++ new) new := by
  have hnrest : n ∉ rest := (List.nodup_cons.mp h.queue.nodup).1
  constructor
  · constructor
    · exact hqueue
    · intro u
      constructor
      · intro hu
        by_cases hunew : u ∈ new
        · exact hnew u hunew
        · have hurest : u ∈ rest := (List.mem_append.mp hu).resolve_right hunew
          have hun : u ≠ n := by
            rintro rfl
            exact hnrest hurest
          rw [hold u hun hunew]
          exact (h.mem u).mp (.tail _ hurest)
      · rintro ⟨hthread, hready⟩
        by_cases hunew : u ∈ new
        · exact List.mem_append_right _ hunew
        · have hun : u ≠ n := by
            rintro rfl
            rw [hn] at hready
            cases hready
          rw [hold u hun hunew] at hready
          have hmem := (h.mem u).mpr ⟨hthread, hready⟩
          exact List.mem_append_left _ ((List.mem_cons.mp hmem).resolve_left hun)
    · intro u hu
      obtain rfl : n = u := Option.some.inj (hcurrent.symm.trans hu)
      rw [hn]
      exact ⟨((h.mem n).mp List.mem_cons_self).1, by decide⟩
  · exact .inr ⟨n, hcurrent, h.ne_current List.mem_cons_self, rfl⟩

variable [DecidableEq T]

section

variable (h : s.Fifo threads l)
include h

/-- `scheduler_add_thread` of a thread that is new or not ready. -/
theorem Scheduler.Fifo.add {threads' : List T} (ht : t ∉ l) (hcurrent : s.current ≠ some t)
    (hthreads : ∀ u, u ∈ threads' ↔ u = t ∨ u ∈ threads) :
    (schedulerAddThread s t).Fifo threads' (l ++ [t]) := by
  constructor
  · exact h.queue.push ht
  · intro u
    by_cases hu : u = t
    · simp [schedulerAddThread, hthreads, hu]
    · simp [schedulerAddThread, hthreads, hu, h.mem]
  · intro u hu
    have hut : u ≠ t := by
      rintro rfl
      exact hcurrent hu
    obtain ⟨hmem, hstate⟩ := h.current u hu
    refine ⟨(hthreads u).mpr (.inr hmem), ?_⟩
    simpa [schedulerAddThread, update_of_ne hut] using hstate

/-- A thread that is not ready changes to another such state, or a TCB is set that is none of
the threads yet. -/
theorem Scheduler.Fifo.setState (ht : t ∉ l) (st : ThreadState) (hst : t ∈ threads → st ≠ .ready) :
    Scheduler.Fifo { s with state := update s.state t st } threads l := by
  constructor
  · exact h.queue
  · intro u
    by_cases hu : u = t
    · subst hu
      simpa [ht] using hst
    · simpa [update_of_ne hu] using h.mem u
  · intro u hu
    obtain ⟨hmem, hstate⟩ := h.current u hu
    refine ⟨hmem, ?_⟩
    by_cases hut : u = t
    · subst hut
      simpa using hst hmem
    · simpa [update_of_ne hut] using hstate

omit [DecidableEq T] in
/-- Contexts do not matter for the order. -/
theorem Scheduler.Fifo.setContext (context : T → CpuContext) :
    Scheduler.Fifo { s with context := context } threads l := ⟨h.queue, h.mem, h.current⟩

/-- A queue is empty, or it is popped in front. -/
theorem Scheduler.Fifo.pop_cases :
    (l = [] ∧ ∃ q, s.ready.pop = (q, none)) ∨
      ∃ n rest q, l = n :: rest ∧ s.ready.pop = (q, some n) ∧ q.Is rest := by
  obtain ⟨hpop, hrest⟩ := h.queue.pop
  cases l with
  | nil => exact .inl ⟨rfl, s.ready.pop.1, Prod.ext rfl hpop⟩
  | cons n rest => exact .inr ⟨n, rest, s.ready.pop.1, rfl, Prod.ext rfl hpop, hrest⟩

end

theorem running_switchTo (s : Scheduler T) (n : T) : (s.switchTo n).Running := by
  intro t ht
  obtain rfl : n = t := Option.some.inj ht
  exact update_self _ _ _

variable {q : Queue T}

/-- The current thread hangs itself behind the queue, and the first thread runs. -/
theorem Scheduler.Fifo.requeue (h : s.Fifo threads (n :: rest)) (hq : q.Is rest)
    (hcurrent : s.current = some t) (context : T → CpuContext) :
    let s' := Scheduler.switchTo
      (schedulerAddThread { s with ready := q, context := context } t) n
    s'.Running ∧ ∃ l' new, s'.Fifo threads l' ∧ Served s s' (n :: rest) l' new ∧
      ∀ u, u ∈ new ↔ some t = some u ∧ s'.current ≠ some u := by
  intro s'
  have ht : t ∉ n :: rest := fun hmem => h.ne_current hmem hcurrent
  have hnt : n ≠ t := fun heq => ht (by simp [heq])
  have htrest : t ∉ rest := fun hmem => ht (.tail _ hmem)
  suffices hnext : s'.Fifo threads (rest ++ [t]) ∧ Served s s' (n :: rest) (rest ++ [t]) [t] from
    ⟨running_switchTo _ n, _, _, hnext.1, hnext.2, fun u => by
      simp only [List.mem_singleton, Option.some.injEq, s', Scheduler.switchTo, ne_eq]
      exact ⟨fun hu => ⟨hu.symm, hu ▸ hnt⟩, fun hu => hu.1.symm⟩⟩
  refine h.dispatch (hq.push htrest) rfl (update_self _ _ _) ?_ ?_
  · intro u hu
    obtain rfl := List.mem_singleton.mp hu
    refine ⟨(h.current u hcurrent).1, ?_⟩
    simp [s', Scheduler.switchTo, schedulerAddThread, update_of_ne hnt.symm]
  · intro u hun hu
    have hut : u ≠ t := fun heq => hu (by simp [heq])
    simp [s', Scheduler.switchTo, schedulerAddThread, update_of_ne hun,
      update_of_ne hut]

/-- The first thread runs, and the current thread, if there is one, does not go back. -/
theorem Scheduler.Fifo.switch (h : s.Fifo threads (n :: rest)) (hq : q.Is rest)
    (context : T → CpuContext) :
    let s' := Scheduler.switchTo { s with ready := q, context := context } n
    s'.Fifo threads rest ∧ Served s s' (n :: rest) rest [] := by
  intro s'
  have hqueue : s'.ready.Is (rest ++ []) := by
    rw [List.append_nil]
    exact hq
  have hold : ∀ u, u ≠ n → u ∉ [] → s'.state u = s.state u :=
    fun u hun _ => update_of_ne hun _ _
  have hdispatch := h.dispatch hqueue rfl (update_self _ _ _) (by simp) hold
  rwa [List.append_nil] at hdispatch

theorem current_tick (hqueue : s.ready.Is (n :: rest)) (r : Regs) :
    (schedulerTick s r).1.current = some n := by
  obtain ⟨q, hpop⟩ : ∃ q, s.ready.pop = (q, some n) := ⟨_, Prod.ext rfl hqueue.pop.1⟩
  unfold schedulerTick saveContextFromRegs
  cases s.current <;> simp only [hpop, Scheduler.switchTo]

section

variable (h : s.Fifo threads l)
include h

theorem Scheduler.Fifo.yield (hrunning : s.Running) (ctx : CpuContext) :
    (schedulerYield s ctx).Running ∧
      ∃ l' new, (schedulerYield s ctx).Fifo threads l' ∧
        Served s (schedulerYield s ctx) l l' new ∧
        ∀ u, u ∈ new ↔ s.current = some u ∧ (schedulerYield s ctx).current ≠ some u := by
  unfold schedulerYield
  rcases h.pop_cases with ⟨rfl, q, hpop⟩ | ⟨n, rest, q, rfl, hpop, hq⟩
  · rw [hpop]
    exact ⟨hrunning, [], [], h, Served.same rfl, by simp⟩
  · rw [hpop]
    rcases hcurrent : s.current with _ | old
    · obtain ⟨hfifo, hserved⟩ := h.switch hq s.context
      exact ⟨running_switchTo _ n, rest, [], hfifo, hserved, by simp⟩
    have hold : s.state old = .running := hrunning old hcurrent
    dsimp only
    rw [if_pos hold]
    exact h.requeue hq hcurrent (update s.context old ctx)

theorem Scheduler.Fifo.tick (hrunning : s.Running) (r : Regs) :
    (schedulerTick s r).1.Running ∧
      ∃ l' new, (schedulerTick s r).1.Fifo threads l' ∧
        Served s (schedulerTick s r).1 l l' new ∧
        ∀ u, u ∈ new ↔ s.current = some u ∧ (schedulerTick s r).1.current ≠ some u := by
  unfold schedulerTick saveContextFromRegs
  cases hcurrent : s.current with
  | none =>
    rcases h.pop_cases with ⟨rfl, q, hpop⟩ | ⟨n, rest, q, rfl, hpop, hq⟩
    · rw [hpop]
      exact ⟨hrunning, [], [], h, Served.same rfl, by simp⟩
    · rw [hpop]
      obtain ⟨hfifo, hserved⟩ := h.switch hq s.context
      exact ⟨running_switchTo _ n, rest, [], hfifo, hserved, by simp⟩
  | some old =>
    dsimp only
    rcases h.pop_cases with ⟨rfl, q, hpop⟩ | ⟨n, rest, q, rfl, hpop, hq⟩
    · rw [hpop]
      rw [← hcurrent]
      exact ⟨hrunning, [], [], h.setContext _, Served.same rfl, by simp⟩
    · have hold : s.state old = .running := hrunning old hcurrent
      rw [hpop]
      dsimp only
      rw [if_pos (.inl hold)]
      exact h.requeue hq hcurrent (update s.context old r.context)

/-- The ticks run the threads of the queue one after the other. -/
theorem Scheduler.Fifo.turn (hrunning : s.Running) (r : Regs) {ticks : List Regs}
    (ht : l[ticks.length]? = some t) :
    ((r :: ticks).foldl (fun s r => (schedulerTick s r).1) s).current = some t := by
  induction ticks generalizing s l r with
  | nil =>
    cases l with
    | nil => cases ht
    | cons n rest => exact (current_tick h.queue r).trans ht
  | cons r' ticks ih =>
    obtain ⟨hruns, l', new, hfifo, ⟨hsame, -⟩ | ⟨u, -, -, heq⟩, -⟩ := h.tick hrunning r
    · cases l with
      | nil => cases ht
      | cons n rest =>
        have hn := hsame.symm.trans (current_tick h.queue r)
        exact absurd hn (h.ne_current List.mem_cons_self)
    · refine ih hfifo hruns r' ?_
      have hmem : (l ++ new)[_]? = some t :=
        (List.getElem?_append_left (List.getElem?_eq_some_iff.mp ht).1).trans ht
      rwa [heq] at hmem

/-- The current thread waits: another one runs, or it goes on. -/
theorem Scheduler.Fifo.block (hcurrent : s.current = some t) (ctx : CpuContext) :
    let s' := schedulerBlockCurrent { s with state := update s.state t .blocked } ctx
    s'.Running ∧ ∃ l', s'.Fifo threads l' ∧ Served s s' l l' [] := by
  have ht : t ∉ l := fun hmem => h.ne_current hmem hcurrent
  have hblocked := h.setState ht .blocked fun _ => by decide
  unfold schedulerBlockCurrent
  rw [hcurrent]
  rcases hblocked.pop_cases with ⟨rfl, q, hpop⟩ | ⟨n, rest, q, rfl, hpop, hq⟩
  · rw [hpop]
    dsimp only
    rw [← hcurrent]
    refine ⟨?_, [], ?_, Served.same rfl⟩
    · intro u hu
      obtain rfl : t = u := Option.some.inj (hcurrent.symm.trans hu)
      exact update_self _ _ _
    · exact hblocked.setState ht .running fun _ => by decide
  · rw [hpop]
    refine ⟨running_switchTo _ n, rest, ?_⟩
    exact hblocked.switch hq (update s.context t ctx)

/-- The current thread has exited: the next one runs, or none is ready. -/
theorem Scheduler.Fifo.leave (ctx : CpuContext) :
    (l = [] ∧ s.leave ctx = none) ∨
      ∃ s' n rest, l = n :: rest ∧ s.leave ctx = some s' ∧ s'.current = some n ∧
        s'.Running ∧ s'.Fifo threads rest := by
  unfold Scheduler.leave
  rcases h.pop_cases with ⟨rfl, q, hpop⟩ | ⟨n, rest, q, rfl, hpop, hq⟩
  · rw [hpop]
    exact .inl ⟨rfl, rfl⟩
  · rw [hpop]
    cases s.current with
    | none =>
      exact .inr ⟨_, n, rest, rfl, rfl, rfl, running_switchTo _ n, (h.switch hq s.context).1⟩
    | some old =>
      exact .inr ⟨_, n, rest, rfl, rfl, rfl, running_switchTo _ n,
        (h.switch hq (update s.context old ctx)).1⟩

end

end Scheduler

/-! ## The calls -/

variable {V : Type*} {s s' : Procs V} {l l' : List TcbPtr} {t : TcbPtr} {op : ProcOp V}

/-- The calls by which a thread exits. -/
def ProcOp.isExit : ProcOp V → Bool
  | .exit _ _ => true
  | _ => false

/-- The ready queue is `l`, and the threads that the processes and the scheduler know were
made by `create_thread` or `fork_process`. -/
structure Queued (s : Procs V) (l : List TcbPtr) : Prop where
  fifo : s.sched.Fifo s.threads l
  waiting : ∀ p w, s.waitQueue p = some w → w ∈ s.threads ∧ s.process w = some p
  alloc : ∀ t ∈ s.threads, t.val < s.kmallocPtr

/-- Only the scheduler, the waiting threads and the end of the memory in use matter. -/
theorem Queued.congr (h : Queued s l) (hsched : s'.sched = s.sched)
    (hthreads : s'.threads = s.threads) (hprocess : s'.process = s.process)
    (hwaiting : ∀ p w, s'.waitQueue p = some w → s.waitQueue p = some w)
    (hptr : s.kmallocPtr ≤ s'.kmallocPtr) : Queued s' l := by
  constructor
  · rw [hsched, hthreads]
    exact h.fifo
  · intro p w hw
    rw [hthreads, hprocess]
    exact h.waiting p w (hwaiting p w hw)
  · intro t ht
    rw [hthreads] at ht
    have := h.alloc t ht
    omega

/-- New memory is not a thread yet. -/
theorem Queued.fresh (h : Queued s l) (ht : s.kmallocPtr ≤ t.val) :
    t ∉ s.threads ∧ t ∉ l ∧ s.sched.current ≠ some t := by
  have hthread : t ∉ s.threads := by
    intro hmem
    have := h.alloc t hmem
    omega
  refine ⟨hthread, fun hmem => ?_, fun hcurrent => ?_⟩
  · exact hthread ((h.fifo.mem t).mp hmem).1
  · exact hthread (h.fifo.current t hcurrent).1

theorem Queued.waiting_add (h : Queued s l) (ht : t ∉ s.threads) (proc : Option PcbPtr)
    (p : PcbPtr) (w : TcbPtr) (hw : s.waitQueue p = some w) :
    w ∈ t :: s.threads ∧ update s.process t proc w = some p := by
  obtain ⟨hthread, hprocess⟩ := h.waiting p w hw
  have hwt : w ≠ t := fun heq => ht (heq ▸ hthread)
  exact ⟨.tail _ hthread, (update_of_ne hwt _ _).trans hprocess⟩

/-- A new thread is queued. -/
theorem Queued.addThread (h : Queued s l) (ht : s.kmallocPtr ≤ t.val) {k : ℕ} (hk : t.val < k)
    (proc : Option PcbPtr) (ctx : CpuContext) :
    Queued (Proc.addThread (s.bump k) t proc ctx) (l ++ [t]) := by
  obtain ⟨hnew, hqueue, hcurrent⟩ := h.fresh ht
  constructor
  · exact (h.fifo.setContext _).add hqueue hcurrent fun u => List.mem_cons
  · intro p w hw
    exact h.waiting_add hnew proc p w hw
  · intro u hu
    change u.val < k
    rcases List.mem_cons.mp hu with rfl | hu
    · exact hk
    · have := h.alloc u hu
      omega

theorem waitQueue_clearPcb (s : Procs V) (p q : PcbPtr) {w : TcbPtr}
    (hw : (clearPcb s p).waitQueue q = some w) : s.waitQueue q = some w := by
  by_cases hq : q = p
  · simp [clearPcb, hq] at hw
  · simpa [clearPcb, update_of_ne hq] using hw

/-- The thread `u` waits in the parent of the process that exits between `s` and `s'`. -/
def Woken (s s' : Procs V) (u : TcbPtr) : Prop :=
  ∃ d q, RunsMain s d ∧ s'.table.parent d = some q ∧ s.waitQueue q = some u ∧
    s.sched.state u = .blocked

/-- The threads that a call puts in the queue: the one that made the call, a new one, or one
that an exit wakes. -/
def Arrives (s s' : Procs V) (op : ProcOp V) (u : TcbPtr) : Prop :=
  s.sched.current = some u ∨ u ∉ s.threads ∨ op.isExit = true ∧ Woken s s' u

/-- A thread stays with its process, and a new thread gets the process that was asked for or a new
one. -/
def Owners (s s' : Procs V) (op : ProcOp V) : Prop :=
  (∀ u ∈ s.threads, u ∈ s'.threads ∧ s'.process u = s.process u) ∧ ∀ u ∈ s'.threads, u ∉ s.threads →
    (∃ pid entry, op = .createThread pid entry ∧
      s'.process u = s.table.findProcessByPid pid) ∨
    ∃ p, s.kmallocPtr ≤ p.val ∧ s'.process u = some p

theorem Owners.same (hthreads : s'.threads = s.threads)
    (hprocess : ∀ u ∈ s.threads, s'.process u = s.process u) : Owners s s' op := by
  refine ⟨fun u hu => ⟨hthreads ▸ hu, hprocess u hu⟩, fun u hu hnew => ?_⟩
  rw [hthreads] at hu
  exact absurd hu hnew

/-- What a call does to the queue: the threads of the queue stay in their order. -/
def QueueStep (s s' : Procs V) (l : List TcbPtr) (op : ProcOp V) : Prop :=
  ∃ l' new, Queued s' l' ∧ Served s.sched s'.sched l l' new ∧
    (s'.halted = false → s'.sched.Running) ∧ (∀ u ∈ new, Arrives s s' op u) ∧ Owners s s' op

/-- A call without arrivals. -/
theorem QueueStep.of_nil (h : Queued s' l') (hserved : Served s.sched s'.sched l l' [])
    (hrunning : s'.sched.Running) (hthreads : s'.threads = s.threads)
    (hprocess : ∀ u ∈ s.threads, s'.process u = s.process u) : QueueStep s s' l op :=
  ⟨l', [], h, hserved, fun _ => hrunning, by simp, Owners.same hthreads hprocess⟩

/-- A call that makes a thread for the process `o`. -/
theorem QueueStep.of_new {o : Option PcbPtr} (h : Queued s' (l ++ [t]))
    (hcurrent : s'.sched.current = s.sched.current) (ht : t ∉ s.threads)
    (hrunning : s'.sched.Running) (hthreads : s'.threads = t :: s.threads)
    (hprocess : s'.process = update s.process t o)
    (howner : (∃ pid entry, op = .createThread pid entry ∧ o = s.table.findProcessByPid pid) ∨
      ∃ p, s.kmallocPtr ≤ p.val ∧ o = some p) : QueueStep s s' l op := by
  refine ⟨l ++ [t], [t], h, .inl ⟨hcurrent, rfl⟩, fun _ => hrunning, fun u hu => ?_,
    fun u hu => ?_, fun u hu hnew => ?_⟩
  · rw [List.mem_singleton.mp hu]
    exact .inr (.inl ht)
  · have hut : u ≠ t := fun heq => ht (heq ▸ hu)
    rw [hthreads, hprocess, update_of_ne hut]
    exact ⟨.tail _ hu, rfl⟩
  · rw [hthreads] at hu
    obtain rfl : u = t := (List.mem_cons.mp hu).resolve_right hnew
    rw [hprocess, update_self]
    exact howner

/-- A call that leaves the threads alone. -/
theorem Queued.stay (h : Queued s l) (hrunning : s.sched.Running) (hsched : s'.sched = s.sched)
    (hthreads : s'.threads = s.threads) (hprocess : s'.process = s.process)
    (hwaiting : s'.waitQueue = s.waitQueue) (hptr : s'.kmallocPtr = s.kmallocPtr) :
    QueueStep s s' l op := by
  have hqueued := h.congr hsched hthreads hprocess (fun p w hw => by rwa [hwaiting] at hw) hptr.ge
  refine QueueStep.of_nil hqueued (Served.same (by rw [hsched])) ?_ hthreads
    fun u _ => congrFun hprocess u
  rw [hsched]
  exact hrunning

/-- A thread that is not running arrives. -/
theorem running_add {s : Scheduler TcbPtr} (hrunning : s.Running) (ht : s.current ≠ some t) :
    (schedulerAddThread s t).Running := by
  intro u hu
  have hut : u ≠ t := by
    rintro rfl
    exact ht hu
  exact (update_of_ne hut _ _).trans (hrunning u hu)

section

variable (h : Queued s l)
include h

theorem Queued.createThread (hrunning : s.sched.Running) (pid : ℕ) (entry : UInt64) :
    QueueStep s (s.orPanic (Proc.createThread s (s.table.findProcessByPid pid) entry)) l
      (.createThread pid entry) := by
  rcases createThread_cases s (s.table.findProcessByPid pid) entry with
    hpanic | hnone | ⟨t, k, ctx, hsome, hle, hlt⟩
  · rw [hpanic]
    exact h.stay hrunning rfl rfl rfl rfl rfl
  · rw [hnone]
    exact h.stay hrunning rfl rfl rfl rfl rfl
  · rw [hsome]
    obtain ⟨hthread, -, hcurrent⟩ := h.fresh hle
    refine QueueStep.of_new (h.addThread hle hlt _ ctx) rfl hthread ?_ rfl rfl
      (.inl ⟨pid, entry, rfl, rfl⟩)
    exact running_add (s := { s.sched with context := _ }) hrunning hcurrent

theorem Queued.createProcess (hrunning : s.sched.Running) (tty : V) (entry : UInt64) (mm : Bool) :
    QueueStep s (s.orPanic (Proc.createProcess tty s entry mm)) l op := by
  rcases createProcess_cases s tty entry mm with hpanic | hnone | ⟨p, k, u, hle, hlt, rfl, hmade⟩
  · rw [hpanic]
    exact h.stay hrunning rfl rfl rfl rfl rfl
  · rw [hnone]
    exact h.stay hrunning rfl rfl rfl rfl rfl
  have hqueued : Queued (initProcess (clearPcb (s.bump k) p) p mm) l :=
    h.congr rfl rfl rfl (fun q _ => waitQueue_clearPcb (s.bump k) p q) (hle.trans hlt.le)
  rcases hmade with hmade | ⟨t, m, ctx, hle', hlt', hmade⟩
  · rw [hmade]
    exact QueueStep.of_nil (hqueued.congr rfl rfl rfl (fun _ _ hw => hw) le_rfl) (Served.same rfl)
      hrunning rfl fun _ _ => rfl
  · have hadd := hqueued.addThread hle' hlt' (some p) ctx
    obtain ⟨hthread, -, hcurrent⟩ := hqueued.fresh hle'
    rw [hmade]
    refine QueueStep.of_new (hadd.congr rfl rfl rfl (fun _ _ hw => hw) le_rfl) rfl hthread ?_ rfl rfl
      (.inr ⟨p, hle, rfl⟩)
    exact running_add (s := { s.sched with context := _ }) hrunning hcurrent

theorem Queued.forkProcess (hrunning : s.sched.Running) (cloned : Bool) :
    QueueStep s (Proc.forkProcess s cloned).1 l op := by
  rcases forkProcess_cases s cloned with
    hnone | ⟨me, parent, child, k, u, -, -, hle, hlt, rfl, hfork⟩
  · rw [hnone]
    exact h.stay hrunning rfl rfl rfl rfl rfl
  have hqueued : Queued (beginFork (clearPcb (s.bump k) child) parent child) l :=
    h.congr rfl rfl rfl (fun q _ => waitQueue_clearPcb (s.bump k) child q) (hle.trans hlt.le)
  rcases hfork with ⟨m, mm, hm, hfork⟩ | ⟨t, n, m, mm, w, hle', hlt', hm, rfl, hfork⟩
  · rw [hfork]
    exact QueueStep.of_nil (hqueued.congr rfl rfl rfl (fun _ _ hw => hw) hm) (Served.same rfl)
      hrunning rfl fun _ _ => rfl
  obtain ⟨hthread, hmem, hcurrent⟩ := hqueued.fresh hle'
  -- The TCB is marked ready, but it is none of the threads before it is queued.
  have hfifo := hqueued.fifo.setState hmem .ready fun hmem => absurd hmem hthread
  have hruns := running_add hrunning hcurrent
  have halloc : ∀ v ∈ s.threads, v.val < n := fun v hv => by have := h.alloc v hv; omega
  rcases hfork with hfork | hfork
  · -- The TCB of the failed fork has its process, but it never becomes a thread.
    rw [hfork]
    have hother : ∀ v ∈ s.threads, v ≠ t := fun v hv heq => hthread (heq ▸ hv)
    refine QueueStep.of_nil ⟨hfifo.setContext _, fun p v hpv => ?_, halloc⟩ (Served.same rfl) hruns
      rfl fun v hv => update_of_ne (hother v hv) _ _
    obtain ⟨hv, hproc⟩ := hqueued.waiting p v hpv
    exact ⟨hv, (update_of_ne (hother v hv) _ _).trans hproc⟩
  · rw [hfork]
    refine QueueStep.of_new ⟨(hfifo.setContext _).add hmem hcurrent fun v => List.mem_cons,
      fun p v hpv => hqueued.waiting_add hthread (some child) p v hpv, fun v hv => ?_⟩ rfl hthread
      (running_add hruns hcurrent) rfl rfl (.inr ⟨child, hle, rfl⟩)
    change v.val < m
    rcases List.mem_cons.mp hv with rfl | hv
    · omega
    · exact (halloc v hv).trans_le hm

/-- The waiting parent arrives, if it is blocked. -/
theorem Queued.wakeParent (hcurrent : ∀ t, s.sched.current = some t → s.sched.state t ≠ .blocked)
    (proc : PcbPtr) :
    ∃ new, Queued (Proc.wakeParent s proc) (l ++ new) ∧
      (Proc.wakeParent s proc).sched.current = s.sched.current ∧
      ∀ u, u ∈ new ↔ ∃ q, s.table.parent proc = some q ∧ s.waitQueue q = some u ∧
        s.sched.state u = .blocked := by
  have hsame : Queued s (l ++ []) := by
    rw [List.append_nil]
    exact h
  unfold Proc.wakeParent
  cases s.table.parent proc with
  | none => exact ⟨[], hsame, rfl, by simp⟩
  | some parent =>
    dsimp only
    cases hwait : s.waitQueue parent with
    | none => exact ⟨[], hsame, rfl, by simp [hwait]⟩
    | some w =>
      have hcleared : Queued { s with waitQueue := update s.waitQueue parent none } l := by
        refine h.congr rfl rfl rfl (fun q v hv => ?_) le_rfl
        by_cases hq : q = parent
        · simp [hq] at hv
        · simpa [update_of_ne hq] using hv
      dsimp only
      split_ifs with hblocked
      · have hw : w ∉ l := by
          intro hmem
          have hready := ((h.fifo.mem w).mp hmem).2
          rw [hblocked] at hready
          cases hready
        have hthread : w ∈ s.threads := (h.waiting parent w hwait).1
        have hother : s.sched.current ≠ some w := fun hc => hcurrent w hc hblocked
        refine ⟨[w], ⟨?_, hcleared.waiting, hcleared.alloc⟩, rfl, fun u => ?_⟩
        · exact h.fifo.add hw hother fun u => ⟨.inr, fun hu => hu.elim (· ▸ hthread) id⟩
        · simp only [List.mem_singleton, Option.some.injEq, exists_eq_left', hwait]
          exact ⟨fun hu => ⟨hu.symm, hu ▸ hblocked⟩, fun hu => hu.1.symm⟩
      · refine ⟨[], ?_, rfl, fun u => ?_⟩
        · rw [List.append_nil]
          exact hcleared
        · simp only [List.not_mem_nil, Option.some.injEq, exists_eq_left', hwait, false_iff]
          rintro ⟨rfl, hstate⟩
          exact hblocked hstate

/-- The first part of an exit lets the waiting parent arrive. -/
theorem Queued.markExit (hrunning : s.sched.Running) :
    ∃ new, Queued (Proc.markExit s) (l ++ new) ∧
      (Proc.markExit s).sched.current = s.sched.current ∧
      ∀ u, u ∈ new ↔ Woken s (Proc.markExit s) u := by
  have hended : ∀ {t}, s.sched.current = some t → Queued (s.endThread t) l := by
    intro t hcurrent
    have ht : t ∉ l := fun hmem => h.fifo.ne_current hmem hcurrent
    exact ⟨h.fifo.setState ht .zombie fun _ => by decide, h.waiting, h.alloc⟩
  rcases markExit_cases s with ⟨hnone, hmark⟩ | ⟨d, t, hcurrent, hproc, hmain, hmark⟩
  · have hqueued : Queued (Proc.markExit s) l ∧
        (Proc.markExit s).sched.current = s.sched.current := by
      rcases hmark with ⟨-, hmark⟩ | ⟨t, hcurrent, hmark⟩
      · rw [hmark]
        exact ⟨h, rfl⟩
      · rw [hmark]
        exact ⟨hended hcurrent, rfl⟩
    rw [← List.append_nil l] at hqueued
    refine ⟨[], hqueued.1, hqueued.2, fun u => iff_of_false List.not_mem_nil ?_⟩
    rintro ⟨d, q, hruns, -⟩
    exact hnone d hruns
  · obtain ⟨files, mm, table, heq⟩ := exitProcess_frame (s.endThread t) d
    have hstate : ∀ u, (s.endThread t).sched.state u = .blocked ↔ s.sched.state u = .blocked := by
      -- The exiting thread itself is blocked neither before nor after it is marked.
      intro u
      by_cases hu : u = t
      · simp [Procs.endThread, hu, hrunning t hcurrent]
      · simp [Procs.endThread, hu]
    have hmarked : Queued { s.endThread t with files := files, mm := mm, table := table } l :=
      (hended hcurrent).congr rfl rfl rfl (fun _ _ hw => hw) le_rfl
    obtain ⟨new, hqueued, hkeep, hnew⟩ := hmarked.wakeParent (fun u hu => by
      rw [Ne, hstate, hrunning u hu]
      decide) d
    rw [hmark, heq]
    refine ⟨new, hqueued, hkeep, fun u => (hnew u).trans ?_⟩
    obtain ⟨waitQueue, sched, hwake⟩ :=
      wakeParent_frame { s.endThread t with files := files, mm := mm, table := table } d
    rw [hwake]
    constructor
    · rintro ⟨q, hparent, hwait, hblocked⟩
      exact ⟨d, q, ⟨t, hcurrent, hproc, hmain⟩, hparent, hwait, (hstate u).mp hblocked⟩
    · rintro ⟨d', q, hruns, hparent, hwait, hblocked⟩
      obtain rfl := hruns.unique ⟨t, hcurrent, hproc, hmain⟩
      exact ⟨q, hparent, hwait, (hstate u).mpr hblocked⟩

/-- An exit dispatches the first thread that is then ready, or halts. -/
theorem Queued.threadExit_cases (hrunning : s.sched.Running) (ctx : CpuContext) :
    ∃ new, (∀ u, u ∈ new ↔ Woken s (schedulerThreadExit s ctx) u) ∧
      (l ++ new = [] ∧ Queued (schedulerThreadExit s ctx) [] ∧
          (schedulerThreadExit s ctx).sched.current = s.sched.current ∧
          (schedulerThreadExit s ctx).halted = true ∨
        ∃ n rest, l ++ new = n :: rest ∧ Queued (schedulerThreadExit s ctx) rest ∧
          (schedulerThreadExit s ctx).sched.current = some n ∧ s.sched.current ≠ some n ∧
          (schedulerThreadExit s ctx).sched.Running ∧
          (schedulerThreadExit s ctx).halted = s.halted) := by
  obtain ⟨new, hmarked, hcurrent, hnew⟩ := h.markExit hrunning
  unfold schedulerThreadExit
  dsimp only
  rcases hmarked.fifo.leave ctx with
    ⟨hempty, hnone⟩ | ⟨sched, n, rest, hcons, hsome, hnext, hruns, hfifo⟩
  · rw [hnone]
    refine ⟨new, hnew, .inl ⟨hempty, ?_, hcurrent, rfl⟩⟩
    rw [hempty] at hmarked
    exact hmarked.congr rfl rfl rfl (fun _ _ hw => hw) le_rfl
  · rw [hsome]
    have hother := hmarked.fifo.ne_current (t := n) (by rw [hcons]; exact List.mem_cons_self)
    refine ⟨new, hnew, .inr ⟨n, rest, hcons, ⟨hfifo, hmarked.waiting, hmarked.alloc⟩, hnext,
      hcurrent ▸ hother, hruns, ?_⟩⟩
    obtain ⟨files, mm, table, waitQueue, sched, hmark⟩ := markExit_frame s
    rw [hmark]

theorem Queued.threadExit (hrunning : s.sched.Running) (ctx : CpuContext)
    (hop : op.isExit = true) : QueueStep s (schedulerThreadExit s ctx) l op := by
  obtain ⟨hthreads, hprocess⟩ := schedulerThreadExit_threads s ctx
  have howners : Owners s (schedulerThreadExit s ctx) op :=
    Owners.same hthreads fun u _ => congrFun hprocess u
  obtain ⟨new, hnew, ⟨hempty, hqueued, hcurrent, hhalted⟩ |
    ⟨n, rest, hcons, hqueued, hcurrent, hother, hruns, -⟩⟩ := h.threadExit_cases hrunning ctx
  · refine ⟨[], new, hqueued, .inl ⟨hcurrent, hempty.symm⟩, fun hgoes => ?_, fun u hu => ?_,
      howners⟩
    · rw [hhalted] at hgoes
      cases hgoes
    · exact .inr (.inr ⟨hop, (hnew u).mp hu⟩)
  · refine ⟨rest, new, hqueued, .inr ⟨n, hcurrent, hother, hcons⟩, fun _ => hruns, fun u hu => ?_,
      howners⟩
    exact .inr (.inr ⟨hop, (hnew u).mp hu⟩)

theorem Queued.waitpid (hrunning : s.sched.Running) (pid options : ℤ) (ctx : CpuContext) :
    QueueStep s (waitpidProcess s pid options ctx).1 l op := by
  rcases waitpidProcess_cases s pid options ctx with
    heq | ⟨parent, first, prev, child, -, -, heq⟩ | ⟨me, parent, hcurrent, hproc, heq⟩
  · rw [heq]
    exact h.stay hrunning rfl rfl rfl rfl rfl
  · rw [heq]
    exact h.stay hrunning rfl rfl rfl rfl rfl
  · rw [heq]
    obtain ⟨hruns, l', hfifo, hserved⟩ := h.fifo.block hcurrent ctx
    refine QueueStep.of_nil ⟨hfifo, ?_, h.alloc⟩ hserved hruns rfl fun _ _ => rfl
    intro q w hw
    by_cases hq : q = parent
    · subst hq
      have heq : me = w := by simpa using hw
      rw [← heq]
      exact ⟨(h.fifo.current me hcurrent).1, hproc⟩
    · exact h.waiting q w (by simpa [update_of_ne hq] using hw)

end

/-- One call keeps the queue in order. -/
theorem Queued.call (h : Queued s l) (hrunning : s.sched.Running) (tty : V) (op : ProcOp V) :
    QueueStep s (s.call tty op) l op := by
  by_cases hfiles : op.onFiles = true
  · obtain ⟨files, mm, context, heq⟩ := call_onFiles_frame s tty hfiles
    rw [heq]
    exact QueueStep.of_nil ⟨h.fifo.setContext context, h.waiting, h.alloc⟩ (Served.same rfl)
      hrunning rfl fun _ _ => rfl
  cases op with
  | createProcess entry mm => exact h.createProcess hrunning tty entry mm
  | createThread pid entry => exact h.createThread hrunning pid entry
  | fork cloned => exact h.forkProcess hrunning cloned
  | sysFork cloned =>
    simp only [Procs.call]
    rcases sysFork_cases s cloned with heq | ⟨isForkChild, heq⟩
    · rw [heq]
      exact h.forkProcess hrunning cloned
    · rw [heq]
      exact h.stay hrunning rfl rfl rfl rfl rfl
  | yield ctx =>
    obtain ⟨hruns, l', new, hfifo, hserved, hnew⟩ := h.fifo.yield hrunning ctx
    exact ⟨l', new, ⟨hfifo, h.waiting, h.alloc⟩, hserved, fun _ => hruns,
      fun u hu => .inl ((hnew u).mp hu).1, Owners.same rfl fun _ _ => rfl⟩
  | tick r =>
    obtain ⟨hruns, l', new, hfifo, hserved, hnew⟩ := h.fifo.tick hrunning r
    exact ⟨l', new, ⟨hfifo, h.waiting, h.alloc⟩, hserved, fun _ => hruns,
      fun u hu => .inl ((hnew u).mp hu).1, Owners.same rfl fun _ _ => rfl⟩
  | exit code ctx =>
    obtain ⟨exitCode, heq⟩ := call_exit tty s code ctx
    rw [heq]
    have hcode : Queued { s with exitCode := exitCode } l :=
      h.congr rfl rfl rfl (fun _ _ hw => hw) le_rfl
    have hstep : QueueStep { s with exitCode := exitCode } _ l (.exit code ctx) :=
      hcode.threadExit hrunning ctx rfl
    exact hstep
  | waitpid pid options ctx => exact h.waitpid hrunning pid options ctx
  | _ => exact absurd rfl hfiles

/-- The threads that the calls dispatch, in their order: a call dispatches a thread when it
makes it the current one. -/
def dispatches (tty : V) : Procs V → List (ProcOp V) → List TcbPtr
  | _, [] => []
  | s, op :: ops =>
    let s' := procStep tty s op
    (if s'.sched.current = s.sched.current then [] else s'.sched.current.toList) ++
      dispatches tty s' ops

/-- What is dispatched by a call and what is then queued is the queue before and the arrivals. -/
theorem Served.dispatched {a b : Scheduler TcbPtr} {new : List TcbPtr} (h : Served a b l l' new) :
    (if b.current = a.current then [] else b.current.toList) ++ l' = l ++ new := by
  obtain ⟨hcurrent, rfl⟩ | ⟨t, ht, hother, heq⟩ := h
  · rw [if_pos hcurrent, List.nil_append]
  · rw [ht, if_neg fun hsame => hother hsame.symm, heq]
    rfl

/-- The queue in every later state. -/
theorem Queued.run (h : Queued s l) (hrunning : s.halted = false → s.sched.Running) (tty : V)
    (ops : List (ProcOp V)) :
    ∃ l' new, Queued (Lib.run (procStep tty) s ops) l' ∧
      ((Lib.run (procStep tty) s ops).halted = false →
        (Lib.run (procStep tty) s ops).sched.Running) ∧
      dispatches tty s ops ++ l' = l ++ new := by
  induction ops generalizing s l with
  | nil => exact ⟨l, [], h, hrunning, by simp [dispatches]⟩
  | cons op ops ih =>
    have hstep : QueueStep s (procStep tty s op) l op := by
      unfold procStep
      cases hhalted : s.halted with
      | true => exact ⟨l, [], h, Served.same rfl, hrunning, by simp, Owners.same rfl fun _ _ => rfl⟩
      | false => exact h.call (hrunning hhalted) tty op
    obtain ⟨l₁, new, hqueued, hserved, hruns, -⟩ := hstep
    have heq := hserved.dispatched
    obtain ⟨l', more, hlast, hlastRuns, hmore⟩ := ih hqueued hruns
    refine ⟨l', new ++ more, hlast, hlastRuns, ?_⟩
    rw [dispatches, List.append_assoc, hmore, ← List.append_assoc, heq, List.append_assoc]

theorem queued_boot : Queued (Procs.boot : Procs V) [] := by
  constructor
  · exact ⟨⟨rfl, rfl⟩, by simp [Procs.boot], by simp [Procs.boot, schedulerInit]⟩
  · simp [Procs.boot]
  · simp [Procs.boot]

/-- The ready queue is a list without duplicates that ends at its tail pointer. It holds the
ready threads and not the current one, and a thread with `k` threads in front of it is
dispatched as soon as `k` others have been. -/
theorem ready_queue_fifo (tty : V) (ops : List (ProcOp V)) :
    let s := run (procStep tty) Procs.boot ops
    ∃ l, s.sched.ready.Is l ∧ l.Nodup ∧ s.sched.ready.tail = l.getLast? ∧
      (∀ t, t ∈ l ↔ t ∈ s.threads ∧ s.sched.state t = .ready) ∧
      (∀ t ∈ l, s.sched.current ≠ some t) ∧
      ∀ (later : List (ProcOp V)) (k : ℕ) (t : TcbPtr), l[k]? = some t →
        k < (dispatches tty s later).length → (dispatches tty s later)[k]? = some t := by
  intro s
  have hboot : (Procs.boot : Procs V).halted = false → (Procs.boot : Procs V).sched.Running := by
    intro _ t ht
    cases ht
  obtain ⟨l, -, hqueued, hrunning, -⟩ := queued_boot.run hboot tty ops
  have hfifo : s.sched.Fifo s.threads l := hqueued.fifo
  refine ⟨l, hfifo.queue, hfifo.queue.nodup, hfifo.queue.tail, hfifo.mem,
    fun t ht => hfifo.ne_current ht, fun later k t hk hlength => ?_⟩
  obtain ⟨l', new, -, -, heq⟩ := hqueued.run hrunning tty later
  have hleft : (dispatches tty s later ++ l')[k]? = (dispatches tty s later)[k]? :=
    List.getElem?_append_left hlength
  have hright : (l ++ new)[k]? = l[k]? :=
    List.getElem?_append_left (List.getElem?_eq_some_iff.mp hk).1
  rw [← hleft, ← hk, ← hright]
  exact congrArg (fun q => q[k]?) heq

/-- No ready thread starves: with `k` others in front, it runs after `k + 1` ticks. -/
theorem ready_threads_take_turns (tty : V) (ops : List (ProcOp V)) :
    let s := run (procStep tty) Procs.boot ops
    ∃ l, s.sched.ready.Is l ∧ (∀ t, t ∈ l ↔ t ∈ s.threads ∧ s.sched.state t = .ready) ∧
      (s.halted = false → ∀ (r : Regs) (ticks : List Regs) (t : TcbPtr),
        l[ticks.length]? = some t →
          ((r :: ticks).foldl (fun s r => (schedulerTick s r).1) s.sched).current = some t) := by
  intro s
  obtain ⟨l, -, hqueued, hrunning, -⟩ := queued_boot.run (fun _ _ ht => by cases ht) tty ops
  refine ⟨l, hqueued.fifo.queue, hqueued.fifo.mem, fun hgo r ticks t ht => ?_⟩
  exact hqueued.fifo.turn (hrunning hgo) r ht

end Tomahawk.Proc
