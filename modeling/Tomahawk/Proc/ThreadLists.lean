import Tomahawk.Proc.Process

/-!
# The threads of a process

`create_thread` puts a thread in front of the list of its process, through the field `next`, and
then into the ready queue, through the same field. The list of a process is what it should be as
long as no queue links two threads.
-/

namespace Tomahawk.Proc

open Function Tomahawk.Lib

/-- The processes, with the field `threads` of each PCB. -/
structure ThreadLists (V : Type*) where
  procs : Procs V
  first : PcbPtr → Option TcbPtr

/-- The calls; a thread is made for an allocated PCB. -/
inductive ThreadOp where
  | createProcess (entry : UInt64) (mm : Bool)
  | createThread (p : PcbPtr) (entry : UInt64)
  | yield (ctx : CpuContext)
  | tick (r : Regs)

variable {V : Type*}

/-- One call, unless the kernel panics. The link that `create_thread` stores for the list is
cleared by `scheduler_add_thread`. -/
def ThreadLists.call (tty : V) (w : ThreadLists V) : ThreadOp → Option (ThreadLists V)
  | .createProcess entry mm =>
    match Proc.createProcess tty w.procs entry mm with
    | none => none
    | some (s, none) => some ⟨s, w.first⟩
    | some (s, some p) => some ⟨s, update w.first p (s.mainThread p)⟩
  | .createThread p entry =>
    match Proc.createThread w.procs (some p) entry with
    | none => none
    | some (s, none) => some ⟨s, w.first⟩
    | some (s, some t) => some ⟨s, update w.first p (some t)⟩
  | .yield ctx => some ⟨{ w.procs with sched := schedulerYield w.procs.sched ctx }, w.first⟩
  | .tick r => some ⟨{ w.procs with sched := (schedulerTick w.procs.sched r).1 }, w.first⟩

/-- Following `threads` and `next` gives the threads that were made for the process. -/
def ThreadLists.Exact (w : ThreadLists V) : Prop :=
  ∀ p, ∃ l, IsList w.procs.sched.ready.next (w.first p) l ∧ l.Nodup ∧
    ∀ t, t ∈ l ↔ t ∈ w.procs.threads ∧ w.procs.process t = some p

/-- A thread is made while the ready queue is empty, for a process that has none. -/
def ThreadOp.Clear (w : ThreadLists V) : ThreadOp → Prop
  | .createProcess _ _ => w.procs.sched.ready.head = none
  | .createThread p _ =>
    p.val < w.procs.kmallocPtr ∧ w.procs.sched.ready.head = none ∧ w.first p = none
  | _ => True

/-- The states that are reached by such calls. -/
inductive ThreadLists.Reached (tty : V) : ThreadLists V → Prop
  | boot : Reached tty ⟨.boot, fun _ => none⟩
  | call {w w' : ThreadLists V} {op : ThreadOp} :
    Reached tty w → op.Clear w → w.call tty op = some w' → Reached tty w'

/-- No thread is linked to another, and each process has at most one. -/
structure ThreadLists.Single (w : ThreadLists V) : Prop where
  links : ∀ t, w.procs.sched.ready.next t = none
  first : ∀ p t, w.first p = some t ↔ t ∈ w.procs.threads ∧ w.procs.process t = some p
  below : ∀ t ∈ w.procs.threads, t.val < w.procs.kmallocPtr ∧
    ∀ p, w.procs.process t = some p → p.val < w.procs.kmallocPtr

variable {tty : V} {w w' : ThreadLists V} {p : PcbPtr} {t : TcbPtr} {op : ThreadOp}

theorem ThreadLists.Single.exact (h : w.Single) : w.Exact := by
  intro p
  cases hfirst : w.first p with
  | none =>
    refine ⟨[], rfl, List.nodup_nil, fun t => ?_⟩
    rw [← h.first p t, hfirst]
    simp
  | some t =>
    refine ⟨[t], isList_cons.mpr ⟨rfl, h.links t⟩, List.nodup_singleton t, fun u => ?_⟩
    rw [← h.first p u, hfirst, List.mem_singleton, Option.some.injEq, eq_comm]

section Queue

variable {T : Type*} [DecidableEq T] {q : Queue T} {s : Scheduler T}

theorem push_unlinked (h : ∀ t, q.next t = none) (hhead : q.head = none) (t u : T) :
    (q.push t).next u = none := by
  simp only [Queue.push, hhead, update_apply, h, ite_self]

/-- The queue has one thread, so none is left. -/
theorem pop_unlinked (h : ∀ t, q.next t = none) :
    (∀ t, q.pop.1.next t = none) ∧ (q.pop.2 ≠ none → q.pop.1.head = none) := by
  unfold Queue.pop
  cases q.head with
  | none => exact ⟨h, fun hne => absurd rfl hne⟩
  | some t => exact ⟨fun u => by simp only [update_apply, h, ite_self], fun _ => h t⟩

theorem yield_unlinked (h : ∀ t, s.ready.next t = none) (ctx : CpuContext) (t : T) :
    (schedulerYield s ctx).ready.next t = none := by
  obtain ⟨hnext, hhead⟩ := pop_unlinked h
  unfold schedulerYield
  split
  · exact h t
  · next hpop =>
    rw [hpop] at hnext hhead
    split
    · exact hnext t
    · dsimp only [Scheduler.switchTo, schedulerAddThread]
      split_ifs
      · exact push_unlinked hnext (hhead (by simp)) _ t
      · exact hnext t

theorem tick_unlinked (h : ∀ t, s.ready.next t = none) (r : Regs) (t : T) :
    (schedulerTick s r).1.ready.next t = none := by
  obtain ⟨hnext, hhead⟩ := pop_unlinked h
  unfold schedulerTick saveContextFromRegs
  split
  · split
    · exact h t
    · next hpop =>
      rw [hpop] at hnext
      exact hnext t
  · dsimp only
    split
    · exact h t
    · next hpop =>
      rw [hpop] at hnext hhead
      split_ifs
      · exact push_unlinked hnext (hhead (by simp)) _ t
      · exact hnext t

end Queue

/-- A thread is added to a process that has none. -/
theorem ThreadLists.Single.add {s : Procs V} (h : w.Single)
    (hhead : w.procs.sched.ready.head = none) (hfirst : w.first p = none)
    (ht : w.procs.kmallocPtr ≤ t.val) (ht' : t.val < s.kmallocPtr) (hp : p.val < s.kmallocPtr)
    (hready : s.sched.ready = w.procs.sched.ready.push t)
    (hprocess : s.process = update w.procs.process t (some p))
    (hthreads : s.threads = t :: w.procs.threads) : Single ⟨s, update w.first p (some t)⟩ := by
  have hnew : t ∉ w.procs.threads := fun hmem => by have := (h.below t hmem).1; omega
  refine ⟨fun u => ?_, fun p' u => ?_, fun u hu => ?_⟩
  · simp only [hready]
    exact push_unlinked h.links hhead t u
  · simp only [hthreads, hprocess, List.mem_cons, update_apply]
    by_cases hu : u = t
    · subst hu
      have hother : w.first p' ≠ some u := fun hu => hnew ((h.first p' u).mp hu).1
      by_cases hp' : p' = p
      · simp [hp']
      · simp [hp', hother, Ne.symm hp']
    · have hsame := h.first p' u
      by_cases hp' : p' = p
      · subst hp'
        simpa [hu, Ne.symm hu, hfirst] using hsame
      · simpa [hu, hp'] using hsame
  · simp only [hthreads, hprocess, List.mem_cons, update_apply] at hu ⊢
    by_cases hut : u = t
    · subst hut
      refine ⟨ht', fun p' hp' => ?_⟩
      rw [if_pos rfl] at hp'
      exact Option.some.inj hp' ▸ hp
    · obtain ⟨hbelow, hpcb⟩ := h.below u (hu.resolve_left hut)
      rw [if_neg hut]
      exact ⟨by omega, fun p' hp' => by have := hpcb p' hp'; omega⟩

/-- Each call keeps the lists apart. -/
theorem ThreadLists.Single.call (h : w.Single) (hclear : op.Clear w)
    (hcall : w.call tty op = some w') : w'.Single := by
  unfold ThreadLists.call at hcall
  cases op with
  | createProcess entry mm =>
    have hfresh : ∀ p : PcbPtr, w.procs.kmallocPtr ≤ p.val → w.first p = none := by
      intro p hp
      rw [Option.eq_none_iff_forall_ne_some]
      intro t ht
      obtain ⟨hmem, hproc⟩ := (h.first p t).mp ht
      have := (h.below t hmem).2 p hproc
      omega
    dsimp only at hcall
    rcases createProcess_cases w.procs tty entry mm with
      hpanic | hnone | ⟨p, k, u, hle, hlt, rfl, hmade | ⟨t, m, ctx, hle', hlt', hmade⟩⟩
    · rw [hpanic] at hcall
      cases hcall
    · rw [hnone] at hcall
      exact Option.some.inj hcall ▸ h
    · rw [hmade] at hcall
      cases hcall
      refine ⟨h.links, fun p' t => ?_, fun t ht => ?_⟩
      · rw [show (finishProcess tty _ p none).mainThread p = none from update_self _ _ _,
          ← hfresh p hle, update_eq_self]
        exact h.first p' t
      · obtain ⟨hbelow, hpcb⟩ := h.below t ht
        have hk := hle.trans_lt hlt
        exact ⟨hbelow.trans hk, fun p' hp' => (hpcb p' hp').trans hk⟩
    · rw [hmade] at hcall
      cases hcall
      rw [show (finishProcess tty _ p (some t)).mainThread p = some t from update_self _ _ _]
      exact h.add hclear (hfresh p hle) (by omega) hlt' (hlt.trans (hle'.trans_lt hlt')) rfl rfl rfl
  | createThread p entry =>
    obtain ⟨hp, hhead, hfirst⟩ := hclear
    dsimp only at hcall
    rcases createThread_cases w.procs (some p) entry with
      hpanic | hnone | ⟨t, k, ctx, hmade, hle, hlt⟩
    · rw [hpanic] at hcall
      cases hcall
    · rw [hnone] at hcall
      exact Option.some.inj hcall ▸ h
    · rw [hmade] at hcall
      cases hcall
      exact h.add hhead hfirst hle hlt (hp.trans (hle.trans_lt hlt)) rfl rfl rfl
  | yield ctx =>
    cases hcall
    exact ⟨yield_unlinked h.links ctx, h.first, h.below⟩
  | tick r =>
    cases hcall
    exact ⟨tick_unlinked h.links r, h.first, h.below⟩

/-- In every state that is reached while threads are only made for processes without one, and
only while the ready queue is empty, the lists of all processes are exact. -/
theorem thread_lists_exact (tty : V) (w : ThreadLists V) (h : ThreadLists.Reached tty w) :
    w.Exact := by
  refine ThreadLists.Single.exact ?_
  induction h with
  | boot => exact ⟨fun _ => rfl, fun _ _ => by simp [Procs.boot], by simp [Procs.boot]⟩
  | call _ hclear hcall ih => exact ih.call hclear hcall

/-- The state after a call that does not panic. -/
def afterCall (w : ThreadLists Unit) (op : ThreadOp) (h : (w.call () op).isSome = true) :
    ThreadLists Unit := (w.call () op).get h

theorem call_eq_afterCall {w : ThreadLists Unit} (h : (w.call () op).isSome = true) :
    w.call () op = some (afterCall w op h) := (Option.some_get h).symm

/-- A process is made. -/
def oneMade : ThreadLists Unit :=
  afterCall ⟨.boot, fun _ => none⟩ (.createProcess 0 true) (by decide)

/-- A tick with all registers zero. -/
def zeroTick : ThreadOp := .tick ⟨0, 0, 0, 0, 0, 0, 0, 0, 0, 0, 0, 0, 0, 0, 0, 0, 0, 0, 0, 0, 0, 0⟩

/-- A tick dispatches the thread of the first process before the second one is made. -/
theorem thread_lists_exact_two :
    (afterCall (afterCall oneMade zeroTick rfl) (.createProcess 0 true) (by decide)).Exact := by
  have hone : ThreadLists.Reached () oneMade :=
    .call .boot (by unfold ThreadOp.Clear; decide) (call_eq_afterCall _)
  have hclear : zeroTick.Clear oneMade := trivial
  refine thread_lists_exact () _
    (.call (.call hone hclear (call_eq_afterCall rfl)) ?_ (call_eq_afterCall _))
  unfold ThreadOp.Clear
  decide

theorem ThreadLists.Exact.process_eq (h : w.Exact) {l : List TcbPtr}
    (hl : IsList w.procs.sched.ready.next (w.first p) l) (ht : t ∈ l) :
    w.procs.process t = some p := by
  obtain ⟨l', hl', -, hmem⟩ := h p
  rw [hl.unique hl'] at ht
  exact ((hmem t).mp ht).2

/-- Without the tick the thread of the first process is linked to that of the second. -/
theorem thread_lists_mixed :
    ¬ (afterCall oneMade (.createProcess 0 true) (by decide)).Exact := by
  intro hexact
  have hsecond := hexact.process_eq (p := ⟨0, by decide⟩) (t := ⟨17872, by decide⟩)
    (l := [⟨688, by decide⟩, ⟨17872, by decide⟩]) (by decide) (by simp)
  revert hsecond
  decide

end Tomahawk.Proc
