import Tomahawk.Lib.Bytes
import Tomahawk.Lib.Merge
import Tomahawk.Lib.Ring
import Tomahawk.Lib.Run

/-!
# Pipes

The ring of `pipe.c` and its reads and writes, by any number of threads. A thread gives up
control at `scheduler_yield` alone: a call runs until it returns or has to wait, and a
waiting call goes on from its loop. `pipe_vop_write` computes the next write index before
it waits and stores it afterwards.
-/

namespace Tomahawk.Proc

open Function Tomahawk.Lib

/-- `PIPE_BUF_SIZE` -/
def pipeBufSize : ℕ := 4096

theorem pipeBufSize_pos : 0 < pipeBufSize := by decide

/-- `struct pipe`. The indices stay below the size of the ring. -/
structure Pipe where
  buf : ℕ → UInt8
  rd : Fin pipeBufSize
  wr : Fin pipeBufSize
  readers : ℤ
  writers : ℤ

/-- The index after `i`. -/
def Pipe.succ (i : Fin pipeBufSize) : Fin pipeBufSize :=
  ⟨(i.val + 1) % pipeBufSize, Nat.mod_lt _ pipeBufSize_pos⟩

/-- The bytes in the ring. -/
def Pipe.buffered (p : Pipe) : List UInt8 := ringContents pipeBufSize p.buf p.rd p.wr

/-- The copy loop of `pipe_vop_read`. -/
def Pipe.take : ℕ → Pipe → Pipe × List UInt8
  | 0, p => (p, [])
  | k + 1, p =>
    let r := Pipe.take k { p with rd := Pipe.succ p.rd }
    (r.1, p.buf p.rd :: r.2)

/-- `pipe_vop_read` from the test of its loop on: what it returns, or `none` if it yields. -/
def pipeVopRead (p : Pipe) (nbyte : ℕ) : Pipe × Option (List UInt8) :=
  if p.rd = p.wr ∧ 0 < p.writers then (p, none)
  else if p.rd = p.wr then (p, some [])
  else
    let avail := (p.wr.val + pipeBufSize - p.rd.val) % pipeBufSize
    let r := p.take (min nbyte avail)
    (r.1, some r.2)

theorem length_pipeTake (n : ℕ) (p : Pipe) : (Pipe.take n p).2.length = n := by
  induction n generalizing p with
  | zero => rfl
  | succ n ih => simp [Pipe.take, ih]

/-- A read returns no more than it was asked for, and no more than the ring holds. -/
theorem length_pipeVopRead {p : Pipe} {nbyte : ℕ} {data : List UInt8}
    (h : (pipeVopRead p nbyte).2 = some data) : data.length ≤ min nbyte pipeBufSize := by
  unfold pipeVopRead at h
  split_ifs at h
  · cases h
    exact Nat.zero_le _
  · cases h
    rw [length_pipeTake]
    have havail := Nat.mod_lt (p.wr.val + pipeBufSize - p.rd.val) pipeBufSize_pos
    omega

/-- How a stretch of `pipe_vop_write` ends: the count it returns, or a yield with the locals
`written` and `next`. -/
inductive WriteEnd where
  | returned (written : ℕ)
  | yielded (written : ℕ) (next : Fin pipeBufSize)
  deriving DecidableEq

/-- The store of one byte. -/
def Pipe.store (p : Pipe) (b : UInt8) (next : Fin pipeBufSize) : Pipe :=
  { p with buf := update p.buf p.wr b, wr := next }

/-- The outer loop of `pipe_vop_write` on the bytes that are left. -/
def writeLoop : List UInt8 → Pipe → ℕ → Pipe × WriteEnd
  | [], p, written => (p, .returned written)
  | b :: rest, p, written =>
    let next := Pipe.succ p.wr
    if next = p.rd ∧ 0 < p.readers then (p, .yielded written next)
    else if p.readers ≤ 0 then (p, .returned written)
    else writeLoop rest (p.store b next) (written + 1)

/-- `pipe_vop_write` after a yield, with the `next` computed before it. -/
def writeResume (p : Pipe) (src : List UInt8) (written : ℕ) (next : Fin pipeBufSize) :
    Pipe × WriteEnd :=
  if next = p.rd ∧ 0 < p.readers then (p, .yielded written next)
  else if p.readers ≤ 0 then (p, .returned written)
  else
    match src.drop written with
    | [] => (p, .returned written)
    | b :: rest => writeLoop rest (p.store b next) (written + 1)

/-- A call that waits at `scheduler_yield`. -/
inductive Waiting where
  | read (nbyte : ℕ)
  | write (src : List UInt8) (written : ℕ) (next : Fin pipeBufSize)

/-- The pipe, the calls that wait, what the reads returned in their order, and the finished
writes of each thread with their results. -/
structure PipeRun (T : Type*) where
  pipe : Pipe
  waiting : T → Option Waiting
  reads : List (List UInt8)
  writes : T → List (List UInt8 × ℤ)

/-- What the scheduler lets happen. A thread starts a call when it is in none. -/
inductive PipeOp (T : Type*) where
  | read (t : T) (nbyte : ℕ)
  | write (t : T) (src : List UInt8)
  | resume (t : T)
  | closeRead
  | closeWrite

variable {T : Type*} [DecidableEq T] {k : ℕ} {w w' : PipeRun T} {t : T} {o : Option Waiting}
  {src : List UInt8}

/-- A read that went as far as it could. -/
def PipeRun.readStep (w : PipeRun T) (t : T) (nbyte : ℕ) : PipeRun T :=
  match pipeVopRead w.pipe nbyte with
  | (p, none) => { w with pipe := p, waiting := update w.waiting t (some (.read nbyte)) }
  | (p, some bytes) =>
    { w with
      pipe := p
      waiting := update w.waiting t none
      reads := w.reads ++ [bytes] }

/-- The write of `src` came to an end or has to wait. -/
def PipeRun.writeEnd (w : PipeRun T) (t : T) (src : List UInt8) : Pipe × WriteEnd → PipeRun T
  | (p, .yielded written next) =>
    { w with
      pipe := p
      waiting := update w.waiting t (some (.write src written next)) }
  | (p, .returned written) =>
    { w with
      pipe := p
      waiting := update w.waiting t none
      writes := update w.writes t (w.writes t ++ [(src, asInt written)]) }

/-- `pipe_vop_write` up to its first yield: without a reader it returns -1. -/
def PipeRun.writeStep (w : PipeRun T) (t : T) (src : List UInt8) : PipeRun T :=
  if w.pipe.readers ≤ 0 then
    { w with writes := update w.writes t (w.writes t ++ [(src, -1)]) }
  else w.writeEnd t src (writeLoop src w.pipe 0)

/-- One stretch between two yields. -/
def pipeStep (w : PipeRun T) : PipeOp T → PipeRun T
  | .read t nbyte => if (w.waiting t).isSome then w else w.readStep t nbyte
  | .write t src => if (w.waiting t).isSome then w else w.writeStep t src
  | .resume t =>
    match w.waiting t with
    | none => w
    | some (.read nbyte) => w.readStep t nbyte
    | some (.write src written next) =>
      w.writeEnd t src (writeResume w.pipe src written next)
  | .closeRead => { w with pipe := { w.pipe with readers := w.pipe.readers - 1 } }
  | .closeWrite => { w with pipe := { w.pipe with writers := w.pipe.writers - 1 } }

/-- The state after `pipe_create`. -/
def PipeRun.init : PipeRun T where
  pipe := ⟨fun _ => 0, ⟨0, pipeBufSize_pos⟩, ⟨0, pipeBufSize_pos⟩, 1, 1⟩
  waiting := fun _ => none
  reads := []
  writes := fun _ => []

/-- The bytes that a waiting call has stored. -/
def Waiting.stored : Option Waiting → List UInt8
  | some (.write src written _) => src.take written
  | _ => []

/-- The bytes of a thread: the first `n` of each write that returned `n`, and what a write
that waits has stored. -/
def PipeRun.contributed (w : PipeRun T) (t : T) : List UInt8 :=
  (w.writes t).flatMap (fun r => r.1.take r.2.toNat) ++ Waiting.stored (w.waiting t)

/-- The bytes that were read, then those in the ring, are a merge of the bytes of the threads. -/
def PipeRun.Intact (w : PipeRun T) : Prop :=
  IsMerge w.contributed (w.reads.flatten ++ w.pipe.buffered)

/-- A write that ends here has a count that an `int` can hold. -/
def WriteEnd.Fits : WriteEnd → Prop
  | .returned written => written < 2 ^ 31
  | .yielded _ _ => True

instance : (e : WriteEnd) → Decidable e.Fits
  | .returned written => inferInstanceAs (Decidable (written < 2 ^ 31))
  | .yielded _ _ => isTrue trivial

/-- A write that stores after a wait finds the write index where it was when it computed
`next`, and does not return after `2 ^ 31` bytes. -/
def Pipe.ResumeMeets (p : Pipe) : Option Waiting → Prop
  | some (.write src written next) =>
    (next ≠ p.rd → 0 < p.readers → next = Pipe.succ p.wr) ∧
      (writeResume p src written next).2.Fits
  | some (.read _) => True
  | none => True

instance (p : Pipe) : (o : Option Waiting) → Decidable (p.ResumeMeets o)
  | some (.write _ _ _) => instDecidableAnd
  | some (.read _) => isTrue trivial
  | none => isTrue trivial

/-- The calls that keep the stream. -/
def PipeMeets (w : PipeRun T) : PipeOp T → Prop
  | .resume t => w.pipe.ResumeMeets (w.waiting t)
  | _ => True

instance (w : PipeRun T) : (o : PipeOp T) → Decidable (PipeMeets w o)
  | .resume t => inferInstanceAs (Decidable (w.pipe.ResumeMeets (w.waiting t)))
  | .write _ _ => isTrue trivial
  | .read _ _ => isTrue trivial
  | .closeRead => isTrue trivial
  | .closeWrite => isTrue trivial

/-! ## Reading and storing -/

section

variable {p p' : Pipe} {src rest : List UInt8} {written written' : ℕ} {next : Fin pipeBufSize}

/-- A byte stored at the write index is buffered last. -/
theorem Pipe.buffered_store (hfull : Pipe.succ p.wr ≠ p.rd) (b : UInt8) :
    (p.store b (Pipe.succ p.wr)).buffered = p.buffered ++ [b] := by
  have hne : (p.wr.val + 1) % pipeBufSize ≠ p.rd.val := fun heq => hfull (Fin.ext heq)
  exact ringContents_push p.rd.isLt p.wr.isLt hne b

/-- The copy loop takes the first bytes of the ring. -/
theorem Pipe.take_spec (hk : k ≤ p.buffered.length) :
    p.buffered = (p.take k).2 ++ (p.take k).1.buffered ∧
      (p.take k).1.readers = p.readers := by
  induction k generalizing p with
  | zero => exact ⟨rfl, rfl⟩
  | succ k ih =>
    have hne : p.rd.val ≠ p.wr.val := by
      intro heq
      simp [buffered, heq] at hk
    have hpop : p.buffered = p.buf p.rd :: { p with rd := succ p.rd : Pipe }.buffered :=
      ringContents_pop p.rd.isLt p.wr.isLt hne
    rw [hpop, List.length_cons] at hk
    obtain ⟨hbuffered, hreaders⟩ := ih (Nat.le_of_succ_le_succ hk)
    refine ⟨?_, hreaders⟩
    rw [hpop, hbuffered]
    rfl

/-- The number of bytes available to a read. -/
theorem Pipe.length_buffered (p : Pipe) :
    p.buffered.length = (p.wr.val + pipeBufSize - p.rd.val) % pipeBufSize := by
  have hrd := p.rd.isLt
  have hwr := p.wr.isLt
  rw [buffered, length_ringContents, ringCount]
  simp only [pipeBufSize] at hrd hwr ⊢
  split_ifs <;> omega

/-- A read takes what it returns from the front of the ring. -/
theorem pipeVopRead_spec (p : Pipe) (nbyte : ℕ) :
    pipeVopRead p nbyte = (p, none) ∨
      ∃ p' bytes, pipeVopRead p nbyte = (p', some bytes) ∧ p.buffered = bytes ++ p'.buffered := by
  unfold pipeVopRead
  split_ifs with hwait hempty
  · exact .inl rfl
  · exact .inr ⟨p, [], rfl, rfl⟩
  · refine .inr ⟨_, _, rfl, (Pipe.take_spec ?_).1⟩
    rw [Pipe.length_buffered]
    exact Nat.min_le_right _ _

/-- How many bytes a stretch of a write has stored in all. -/
def WriteEnd.count : WriteEnd → ℕ
  | .returned written => written
  | .yielded written _ => written

/-- The write loop stores the bytes that it counts. -/
theorem writeLoop_spec (rest : List UInt8) (p : Pipe) (written : ℕ) :
    ∃ k ≤ rest.length, (writeLoop rest p written).2.count = written + k ∧
      (writeLoop rest p written).1.buffered = p.buffered ++ rest.take k := by
  induction rest generalizing p written with
  | nil => exact ⟨0, Nat.le_refl _, rfl, by simp [writeLoop]⟩
  | cons b rest ih =>
    unfold writeLoop
    dsimp only
    split_ifs with hwait hbroken
    · exact ⟨0, Nat.zero_le _, rfl, by simp⟩
    · exact ⟨0, Nat.zero_le _, rfl, by simp⟩
    · have hfull : Pipe.succ p.wr ≠ p.rd := fun heq => hwait ⟨heq, by omega⟩
      obtain ⟨k, hk, hwritten, hbuffered⟩ := ih (p.store b (Pipe.succ p.wr)) (written + 1)
      refine ⟨k + 1, by simpa using hk, by omega, ?_⟩
      rw [hbuffered, Pipe.buffered_store hfull, List.take_succ_cons, List.append_assoc,
        List.singleton_append]

/-- A resumed write stores the bytes that it counts, if its `next` is still the next index. -/
theorem writeResume_spec
    (hnext : next ≠ p.rd → 0 < p.readers → next = Pipe.succ p.wr) (src : List UInt8)
    (written : ℕ) :
    ∃ k ≤ (src.drop written).length,
      (writeResume p src written next).2.count = written + k ∧
      (writeResume p src written next).1.buffered = p.buffered ++ (src.drop written).take k := by
  unfold writeResume
  split_ifs with hwait hbroken
  · exact ⟨0, Nat.zero_le _, rfl, by simp⟩
  · exact ⟨0, Nat.zero_le _, rfl, by simp⟩
  · have hreaders : 0 < p.readers := by omega
    have hfull : next ≠ p.rd := fun heq => hwait ⟨heq, hreaders⟩
    obtain rfl := hnext hfull hreaders
    convert writeLoop_spec (src.drop written) p written using 5 <;>
      cases src.drop written <;> simp [writeLoop, hwait, hbroken]

end

/-! ## Every interleaving -/

/-- What holds between two stretches: the stream is intact, and a write that waits has counted
no more bytes than it has. -/
structure PipeOk (w : PipeRun T) : Prop where
  intact : w.Intact
  waits : ∀ t src written next, w.waiting t = some (.write src written next) →
    written ≤ src.length

/-- Threads other than `t` keep their bytes. -/
theorem contributed_of_ne {u : T} (hu : u ≠ t) {ws : List (List UInt8 × ℤ)}
    (hwaiting : w'.waiting = update w.waiting t o) (hwrites : w'.writes = update w.writes t ws) :
    w'.contributed u = w.contributed u := by
  simp only [PipeRun.contributed, hwaiting, hwrites, update_of_ne hu]

/-- A thread that stores nothing keeps the stream, if it moves bytes from the ring to the reads
at most. -/
theorem PipeOk.of_stream (h : PipeOk w) (ht : Waiting.stored (w.waiting t) = [])
    (ho : ∀ src written next, o ≠ some (.write src written next))
    (hwaiting : w'.waiting = update w.waiting t o) (hwrites : w'.writes = w.writes)
    (hstream : w'.reads.flatten ++ w'.pipe.buffered = w.reads.flatten ++ w.pipe.buffered) :
    PipeOk w' := by
  have hstored : Waiting.stored o = [] := by
    rcases o with _ | _ | ⟨src, written, next⟩
    · rfl
    · rfl
    · exact absurd rfl (ho src written next)
  have hcontributed : w'.contributed = w.contributed := by
    funext u
    by_cases hu : u = t
    · subst hu
      simp only [PipeRun.contributed, hwaiting, hwrites, update_self, hstored, ht]
    · exact contributed_of_ne hu hwaiting (by rw [hwrites, update_eq_self])
  refine ⟨?_, fun u src written next hu => ?_⟩
  · unfold PipeRun.Intact
    rw [hcontributed, hstream]
    exact h.intact
  · rw [hwaiting] at hu
    by_cases hut : u = t
    · subst hut
      rw [update_self] at hu
      exact absurd hu (ho src written next)
    · rw [update_of_ne hut] at hu
      exact h.waits u src written next hu

/-- A read keeps the stream, also one that goes on after a wait. -/
theorem PipeOk.readStep (h : PipeOk w) (ht : Waiting.stored (w.waiting t) = []) (nbyte : ℕ) :
    PipeOk (w.readStep t nbyte) := by
  unfold PipeRun.readStep
  rcases pipeVopRead_spec w.pipe nbyte with hread | ⟨p', bytes, hread, hbuffered⟩
  · rw [hread]
    exact h.of_stream ht (by simp) rfl rfl rfl
  · rw [hread]
    exact h.of_stream ht (by simp) rfl rfl (by simp [hbuffered])

/-- A write that stored `k` more bytes keeps the stream. -/
theorem PipeOk.writeEnd (h : PipeOk w) {written : ℕ}
    (hstored : Waiting.stored (w.waiting t) = src.take written) (hwritten : written ≤ src.length)
    {r : Pipe × WriteEnd} (hfits : r.2.Fits) (hk : k ≤ (src.drop written).length)
    (hcount : r.2.count = written + k)
    (hbuffered : r.1.buffered = w.pipe.buffered ++ (src.drop written).take k) :
    PipeOk (w.writeEnd t src r) := by
  have htake : src.take (written + k) = src.take written ++ (src.drop written).take k :=
    List.take_add
  have hle : written + k ≤ src.length := by
    rw [List.length_drop] at hk
    omega
  -- In both cases the thread has the old bytes and the new ones.
  have hcontributed : (w.writeEnd t src r).contributed =
      update w.contributed t (w.contributed t ++ (src.drop written).take k) := by
    funext u
    obtain ⟨p, result⟩ := r
    by_cases hu : u = t
    · subst hu
      rw [update_self, PipeRun.contributed, PipeRun.contributed, hstored,
        List.append_assoc, ← htake]
      cases result with
      | yielded count next =>
        obtain rfl : count = written + k := hcount
        simp [PipeRun.writeEnd, Waiting.stored]
      | returned count =>
        obtain rfl : count = written + k := hcount
        simp [PipeRun.writeEnd, Waiting.stored, asInt_toNat hfits]
    · rw [update_of_ne hu]
      cases result with
      | yielded count next =>
        exact contributed_of_ne hu rfl (update_eq_self _ _).symm
      | returned count => exact contributed_of_ne hu rfl rfl
  refine ⟨?_, fun u src' written' next' hwait => ?_⟩
  · have hmerge := IsMerge.append h.intact t ((src.drop written).take k)
    unfold PipeRun.Intact
    rw [hcontributed]
    obtain ⟨p, result⟩ := r
    cases result <;> simpa [PipeRun.writeEnd, hbuffered] using hmerge
  · obtain ⟨p, result⟩ := r
    by_cases hu : u = t
    · subst hu
      cases result with
      | yielded count next =>
        obtain rfl : count = written + k := hcount
        simp only [PipeRun.writeEnd, update_self, Option.some.injEq,
          Waiting.write.injEq] at hwait
        obtain ⟨rfl, rfl, -⟩ := hwait
        exact hle
      | returned count => simp [PipeRun.writeEnd] at hwait
    · refine h.waits u src' written' next' ?_
      cases result <;> simpa [PipeRun.writeEnd, hu] using hwait

/-- A write that has not waited yet has stored no more than the ring holds. -/
theorem writeLoop_fits (src : List UInt8) (p : Pipe) : (writeLoop src p 0).2.Fits := by
  obtain ⟨k, hk, hcount, hbuffered⟩ := writeLoop_spec src p 0
  have hlt : (writeLoop src p 0).1.buffered.length < pipeBufSize := by
    rw [Pipe.length_buffered]
    exact Nat.mod_lt _ pipeBufSize_pos
  rw [hbuffered, List.length_append, List.length_take, Nat.min_eq_left hk] at hlt
  cases hend : (writeLoop src p 0).2 with
  | yielded written next => trivial
  | returned written =>
    rw [hend] at hcount
    have hwritten : written = 0 + k := hcount
    simp only [pipeBufSize] at hlt
    change written < 2 ^ 31
    omega

theorem PipeOk.writeStep (h : PipeOk w) (ht : w.waiting t = none) : PipeOk (w.writeStep t src) := by
  have hstored : Waiting.stored (w.waiting t) = src.take 0 := by
    rw [ht]
    rfl
  unfold PipeRun.writeStep
  split_ifs with hbroken
  · -- The write that returns -1 adds no bytes.
    have hcontributed : PipeRun.contributed
        { w with writes := update w.writes t (w.writes t ++ [(src, -1)]) } =
          w.contributed := by
      funext u
      by_cases hu : u = t
      · subst hu
        simp [PipeRun.contributed]
      · exact contributed_of_ne hu (update_eq_self t _).symm rfl
    refine ⟨?_, h.waits⟩
    unfold PipeRun.Intact
    rw [hcontributed]
    exact h.intact
  · obtain ⟨k, hk, hcount, hbuffered⟩ := writeLoop_spec src w.pipe 0
    exact h.writeEnd hstored (Nat.zero_le _) (writeLoop_fits src w.pipe) hk hcount hbuffered

theorem PipeOk.step (h : PipeOk w) (o : PipeOp T) (hmeets : PipeMeets w o) :
    PipeOk (pipeStep w o) := by
  cases o with
  | read t nbyte =>
    simp only [pipeStep]
    split_ifs with hwait
    · exact h
    · have ht : w.waiting t = none := by simpa using hwait
      exact h.readStep (by rw [ht]; rfl) nbyte
  | write t src =>
    simp only [pipeStep]
    split_ifs with hwait
    · exact h
    · exact h.writeStep (by simpa using hwait)
  | resume t =>
    simp only [pipeStep]
    rcases ht : w.waiting t with _ | nbyte | ⟨src, written, next⟩
    · exact h
    · exact h.readStep (by rw [ht]; rfl) nbyte
    · simp only [PipeMeets, Pipe.ResumeMeets, ht] at hmeets
      obtain ⟨k, hk, hcount, hbuffered⟩ := writeResume_spec hmeets.1 src written
      have hwritten := h.waits t src written next ht
      exact h.writeEnd (by rw [ht]; rfl) hwritten hmeets.2 hk hcount hbuffered
  | closeRead => exact ⟨h.intact, h.waits⟩
  | closeWrite => exact ⟨h.intact, h.waits⟩

theorem PipeOk.init : PipeOk (PipeRun.init : PipeRun T) :=
  ⟨isMerge_nil, by simp [PipeRun.init]⟩

/-- Pipe stream integrity: in every interleaving, what was read and what is in the ring is a
merge of the bytes that the threads have stored. -/
theorem pipe_stream_intact (ops : List (PipeOp T))
    (hmeets : Guarded pipeStep PipeMeets PipeRun.init ops) :
    (run pipeStep (PipeRun.init : PipeRun T) ops).Intact :=
  (run_invariant (fun _ o h => h.step o) PipeOk.init hmeets).intact

/-- A writer fills the ring and waits, and goes on when a byte was read. -/
def pipeShortRun : List (PipeOp (Fin 2)) :=
  [.write 0 (List.replicate 4096 1), .read 1 1, .resume 0]

theorem pipe_stream_intact_short :
    Guarded pipeStep PipeMeets PipeRun.init pipeShortRun ∧
      (run pipeStep PipeRun.init pipeShortRun).Intact := by
  refine ⟨?hmeets, pipe_stream_intact pipeShortRun ?hmeets⟩
  decide +kernel

/-- Two writers wait on a full ring, a reader takes one byte, and both go on. -/
def pipeFullRun : List (PipeOp (Fin 3)) :=
  [.write 0 (List.replicate 4095 0), .write 0 [1], .write 1 [2], .read 2 1, .resume 0, .resume 1]

/-- The second writer sets the write index back: of 4097 stored bytes 4096 are left. -/
theorem pipe_stream_loses_byte : ¬ (run pipeStep PipeRun.init pipeFullRun).Intact := by
  intro h
  have hlength := h.length_eq
  revert hlength
  decide +kernel

end Tomahawk.Proc
