import Tomahawk.Proc.Execution

/-!
# Signals

Delivery of signals by `signal.c` when a timer tick resumes a thread. A tick delivers at most one
signal, the one with the lowest number, and none while a handler runs. A fatal signal ends the
thread that was resumed, and its process only if that is the main thread.
-/

namespace Tomahawk.Proc

open Function Tomahawk.Lib

/-- `signal_struct_t`. A handler is an address, or 0 for `SIG_DFL` and 1 for `SIG_IGN`. -/
structure SignalStruct where
  handlers : ℕ → UInt64
  pending : BitVec 64
  blocked : BitVec 64
  savedRip : UInt64
  savedRsp : UInt64
  inSignalHandler : Bool

/-- `sig_default_action_t` -/
inductive SigAction where
  | term
  | ign
  | core
  | stop
  | cont
  deriving DecidableEq

/-- `signal_default_action` -/
def signalDefaultAction (signo : ℕ) : SigAction :=
  if signo ∈ [1, 2, 9, 10, 12, 13, 14, 15, 16, 26, 27, 29, 30] then .term
  else if signo ∈ [3, 4, 5, 6, 7, 8, 11, 24, 25, 31] then .core
  else if signo ∈ [19, 20, 21, 22] then .stop
  else if signo = 18 then .cont
  else .ign

/-- `signal_next_pending` -/
def signalNextPending (sig : SignalStruct) : Option ℕ :=
  (List.range' 1 31).find? fun i => (sig.pending &&& ~~~sig.blocked).getLsbD (i - 1)

/-- `signal_dequeue` -/
def signalDequeue (sig : SignalStruct) (signo : ℕ) : SignalStruct :=
  { sig with pending := sig.pending &&& ~~~(1#64 <<< (signo - 1)) }

/-- How `signal_deliver` ends: it returns a value, or the thread exits with a status. -/
inductive DeliverEnd where
  | returned (value : ℤ)
  | exits (code : ℤ)
  deriving DecidableEq

/-- `signal_deliver` -/
def signalDeliver (sig : SignalStruct) (r : Regs) : SignalStruct × Regs × DeliverEnd :=
  if sig.inSignalHandler then (sig, r, .returned 0)
  else
    match signalNextPending sig with
    | none => (sig, r, .returned 0)
    | some signo =>
      let handler := sig.handlers signo
      let dequeued := signalDequeue sig signo
      if handler = 1 then (dequeued, r, .returned 0)
      else if handler = 0 then
        match signalDefaultAction signo with
        | .term | .core => (dequeued, r, .exits (128 + signo))
        | .ign | .stop | .cont => (dequeued, r, .returned 0)
      else
        ({ dequeued with savedRip := r.rip, savedRsp := r.rsp, inSignalHandler := true },
          { r with rdi := UInt64.ofNat signo, rsp := r.rsp - 8, rip := handler }, .returned 1)

/-- `signal_return` -/
def signalReturn (sig : SignalStruct) (r : Regs) : SignalStruct × Regs × ℤ :=
  if sig.inSignalHandler then
    ({ sig with inSignalHandler := false }, { r with rip := sig.savedRip, rsp := sig.savedRsp }, 0)
  else (sig, r, -1)

/-! ## Handlers -/

/-- When a handler returns with the frame that it got, the interrupted frame is back exactly if
`rdi` was the number of the signal: `signal_deliver` does not save it. -/
theorem signal_transparent_iff (sig : SignalStruct) (r : Regs) (signo : ℕ)
    (hidle : sig.inSignalHandler = false) (hnext : signalNextPending sig = some signo)
    (hhandled : sig.handlers signo ≠ 0 ∧ sig.handlers signo ≠ 1) :
    (signalReturn (signalDeliver sig r).1 (signalDeliver sig r).2.1).2.1.Agrees r ↔
      r.rdi = UInt64.ofNat signo := by
  have hdeliver : signalDeliver sig r =
      ({ signalDequeue sig signo with
          savedRip := r.rip, savedRsp := r.rsp, inSignalHandler := true },
        { r with rdi := UInt64.ofNat signo, rsp := r.rsp - 8, rip := sig.handlers signo },
        .returned 1) := by
    simp [signalDeliver, hidle, hnext, hhandled]
  rw [hdeliver]
  constructor
  · intro hagrees
    exact (congrArg Regs.rdi hagrees).symm
  · intro hrdi
    rw [signalReturn, if_pos rfl, ← hrdi]
    rfl

/-- A process that has a handler for `SIGUSR1`, which is pending. -/
def usr1Pending : SignalStruct := ⟨fun _ => 0x400000, 1#64 <<< 9, 0, 0, 0, false⟩

/-- A frame with all registers zero but `rdi`. -/
def zeroFrame (rdi : UInt64) : Regs :=
  ⟨0, 0, 0, 0, 0, rdi, 0, 0, 0, 0, 0, 0, 0, 0, 0, 0, 0, 0, 0, 0, 0, 0⟩

theorem signal_transparent_ten :
    (signalReturn (signalDeliver usr1Pending (zeroFrame 10)).1
      (signalDeliver usr1Pending (zeroFrame 10)).2.1).2.1.Agrees (zeroFrame 10) :=
  (signal_transparent_iff usr1Pending (zeroFrame 10) 10 rfl (by decide) (by decide)).mpr rfl

/-- The first argument of the interrupted code is lost. -/
theorem signal_changes_rdi :
    (signalReturn (signalDeliver usr1Pending (zeroFrame 0)).1
      (signalDeliver usr1Pending (zeroFrame 0)).2.1).2.1.rdi = 10 := by decide

/-! ## Ticks that deliver a signal -/

variable {V : Type*} {P : List PcbPtr} {kids : PcbPtr → List PcbPtr} {p : PcbPtr}

/-- No thread of the process is ready, and none runs. -/
def Idle (s : Procs V) (p : PcbPtr) : Prop :=
  ∀ u ∈ s.threads, s.process u = some p →
    s.sched.state u ≠ .ready ∧ (s.halted = false → s.sched.current ≠ some u)

/-- The calls that give a dead process nothing to do: no thread is made for it, and no child of it
exits, which only init gets after its own exit. -/
def LeavesAlone (p : PcbPtr) (s : Procs V) : ProcOp V → Prop
  | .createThread pid _ => s.table.findProcessByPid pid ≠ some p
  | .exit _ _ => ∀ d, RunsMain s d → s.table.parent d ≠ some p
  | _ => True

section States

variable {s : Procs V} {l : List TcbPtr} {t u : TcbPtr}

/-- What is not dispatched is queued after a call if it was before or arrives. -/
theorem Served.mem_iff {a b : Scheduler TcbPtr} {l' new : List TcbPtr} (h : Served a b l l' new)
    (hu : b.current ≠ some u) : u ∈ l' ↔ u ∈ l ∨ u ∈ new := by
  rw [← List.mem_append]
  obtain ⟨-, rfl⟩ | ⟨n, hn, -, heq⟩ := h
  · rfl
  · rw [heq, List.mem_cons, or_iff_right]
    rintro rfl
    exact hu hn

/-- What is neither queued nor arrives is not queued or dispatched by a call. -/
theorem Served.notMem {a b : Scheduler TcbPtr} {l' new : List TcbPtr} (h : Served a b l l' new)
    (hu : u ∉ l ++ new) (hcurrent : a.current ≠ some u) : u ∉ l' ∧ b.current ≠ some u := by
  obtain ⟨hsame, rfl⟩ | ⟨n, hn, -, heq⟩ := h
  · exact ⟨hu, hsame ▸ hcurrent⟩
  · rw [heq, List.mem_cons, not_or] at hu
    refine ⟨hu.2, fun hb => hu.1 ?_⟩
    exact Option.some.inj (hb.symm.trans hn)

/-- A call that leaves an idle process alone keeps it idle. -/
theorem Idle.call (hidle : Idle s p) (h : Queued s l) (hrunning : s.sched.Running)
    (hon : s.halted = false) (htree : TreeOk s P kids) (hp : p.val < s.kmallocPtr) (tty : V)
    {op : ProcOp V} (hleaves : LeavesAlone p s op) : Idle (s.call tty op) p := by
  intro u hu hproc
  obtain ⟨l', new, hqueued, hserved, -, harrives, hsame, howner⟩ := h.call hrunning tty op
  have hold : u ∈ s.threads := by
    by_contra hnew
    rcases howner u hu hnew with ⟨pid, entry, rfl, hfind⟩ | ⟨q, hle, hq⟩
    · exact hleaves (hfind.symm.trans hproc)
    · obtain rfl : q = p := Option.some.inj (hq.symm.trans hproc)
      omega
  rw [(hsame u hold).2] at hproc
  obtain ⟨hready, hcurrent⟩ := hidle u hold hproc
  have hwaits : u ∉ l ++ new := by
    intro hmem
    rcases List.mem_append.mp hmem with hmem | hmem
    · exact hready ((h.fifo.mem u).mp hmem).2
    rcases harrives u hmem with hc | hnew | ⟨hexit, d, q, hmain, hparent, hwait, -⟩
    · exact hcurrent hon hc
    · exact hnew hold
    -- A thread of the process is only woken by a child.
    obtain rfl : q = p := Option.some.inj ((h.waiting q u hwait).2.symm.trans hproc)
    cases op with
    | exit code ctx =>
      obtain ⟨exitCode, heq⟩ := call_exit tty s code ctx
      have hcode : TreeOk { s with exitCode := exitCode } P kids :=
        ⟨htree.tree, htree.pos, htree.owner, htree.dead⟩
      obtain ⟨_, _, -, hexits, -⟩ := hcode.threadExit_main hmain ctx
      rw [heq, hexits.parent] at hparent
      exact hleaves d hmain hparent
    | _ => cases hexit
  obtain ⟨hmem, hother⟩ := hserved.notMem hwaits (hcurrent hon)
  exact ⟨fun hr => hmem ((hqueued.fifo.mem u).mpr ⟨hu, hr⟩), fun _ => hother⟩

end States

end Tomahawk.Proc
