import Tomahawk.Lib.Ring
import Tomahawk.Lib.Run
import Tomahawk.Net.Socket

/-!
# Packet rings

`net_rx.c`, `net_tx.c` and every socket keep packets in a ring with `head`, `tail` and `count`.
The drain loops `net_rx_process` and `net_tx_flush` take an entry under the lock and process it
after the lock is released, so other calls fall between the two parts of a turn.
-/

namespace Tomahawk.Net

open Function Tomahawk.Lib

/-- `net_rx_entry_t` and `net_tx_entry_t`: two pointers, zero when NULL. -/
structure NetEntry where
  dev : UInt64
  nb : UInt64

/-- The ring of `net_rx.c` or `net_tx.c`, with its counters. -/
structure NetRing (k : ℕ) where
  ring : Fin (2 ^ k) → NetEntry
  head : Fin (2 ^ k)
  tail : Fin (2 ^ k)
  count : ℕ
  statEnqueued : UInt64
  statProcessed : UInt64
  statDropped : UInt64

variable {k : ℕ}

/-- `(i + 1) & (SIZE - 1)`. -/
def nextSlot (i : Fin (2 ^ k)) : Fin (2 ^ k) :=
  ⟨(i + 1) &&& (2 ^ k - 1), Nat.and_lt_two_pow _ (Nat.sub_lt (Nat.two_pow_pos k) Nat.one_pos)⟩

/-- The mask wraps because the size is a power of two. -/
theorem nextSlot_eq (i : Fin (2 ^ k)) : nextSlot i = i + 1 := by
  refine Fin.ext ((Nat.and_two_pow_sub_one_eq_mod _ k).trans ?_)
  rw [Fin.val_add, Fin.val_one', Nat.add_mod_mod]

/-- The ring after its initialisation. -/
def netRingInit (k : ℕ) : NetRing k := ⟨fun _ => ⟨0, 0⟩, 0, 0, 0, 0, 0, 0⟩

/-- `net_rx_init`, with `NET_RX_RING_SIZE` 128. -/
def netRxInit : NetRing 7 := netRingInit 7

/-- `net_tx_init`, with `NET_TX_RING_SIZE` 64. -/
def netTxInit : NetRing 6 := netRingInit 6

/-- `net_rx_enqueue` and `net_tx_enqueue`, without the error counter of the device. -/
def netEnqueue (r : NetRing k) (e : NetEntry) : NetRing k × ℤ :=
  if 2 ^ k ≤ r.count then ({ r with statDropped := r.statDropped + 1 }, -1)
  else
    ({ r with
        ring := update r.ring r.head e
        head := nextSlot r.head
        count := r.count + 1
        statEnqueued := r.statEnqueued + 1 }, 0)

/-- The first part of a turn of the drain loop, which ends when the ring is empty. -/
def netTake (r : NetRing k) : Option (NetRing k × NetEntry) :=
  if r.count = 0 then none
  else some
    ({ r with
        ring := update r.ring r.tail ⟨0, 0⟩
        tail := nextSlot r.tail
        count := r.count - 1 }, r.ring r.tail)

/-- The second part: an entry with a device and a buffer is processed and counted. -/
def netDone (r : NetRing k) (e : NetEntry) : NetRing k :=
  if e.dev ≠ 0 ∧ e.nb ≠ 0 then { r with statProcessed := r.statProcessed + 1 } else r

/-- The steps on a ring; `done i` ends the turn of one of the drains in progress. -/
inductive NetOp where
  | enqueue (e : NetEntry)
  | take
  | done (i : ℕ)

/-- A ring, with the entries that drains have taken and not yet processed. -/
structure NetRun (k : ℕ) where
  ring : NetRing k
  taken : List NetEntry

/-- One step, and the entry that it accepts or hands out. -/
def NetRun.step (w : NetRun k) : NetOp → NetRun k × Option NetEntry
  | .enqueue e =>
    let r := netEnqueue w.ring e
    (⟨r.1, w.taken⟩, if r.2 = 0 then some e else none)
  | .take =>
    match netTake w.ring with
    | none => (w, none)
    | some (r, e) => (⟨r, e :: w.taken⟩, some e)
  | .done i =>
    match w.taken[i]? with
    | none => (w, none)
    | some e => (⟨netDone w.ring e, w.taken.eraseIdx i⟩, none)

/-- A value joins a queue of at most `cap` values unless the queue is full. -/
def fifoPush {α : Type*} (cap : ℕ) (q : List α) (a : α) : List α × Option α :=
  if q.length < cap then (q ++ [a], some a) else (q, none)

/-- The step of a queue of the same capacity. -/
def netFifo (k : ℕ) (q : List NetEntry) : NetOp → List NetEntry × Option NetEntry
  | .enqueue e => fifoPush (2 ^ k) q e
  | .take => (q.tail, q.head?)
  | .done _ => (q, none)

/-- A datagram in the ring of a socket, and its sender. -/
abbrev RxDatagram := List UInt8 × SockaddrIn

/-- A step on the ring of a socket: a datagram is pushed, or one is popped into a buffer. -/
def rxStep (ring : RxRing) : RxDatagram ⊕ ℕ → RxRing × Option RxDatagram
  | .inl d =>
    match rxRingPush ring d.1 d.2 with
    | none => (ring, none)
    | some ring => (ring, some (d.1.take socketRxBufSize, d.2))
  | .inr maxlen =>
    match rxRingPop ring maxlen with
    | none => (ring, none)
    | some (ring, d) => (ring, some d)

/-- The step of a queue of sixteen datagrams. -/
def rxFifo (q : List RxDatagram) : RxDatagram ⊕ ℕ → List RxDatagram × Option RxDatagram
  | .inl d => fifoPush socketRxRingSize q (d.1.take socketRxBufSize, d.2)
  | .inr maxlen => (q.tail, q.head?.map fun d => (d.1.take maxlen, d.2))

/-- Every entry that is enqueued has a device and a buffer. -/
def NetOp.Full : NetOp → Prop
  | .enqueue e => e.dev ≠ 0 ∧ e.nb ≠ 0
  | _ => True

/-- The ring holds `q`; if `full`, the entries that are not processed make up the difference
of the counters. -/
structure NetRun.Holds (full : Prop) (w : NetRun k) (q : List NetEntry) : Prop where
  ring : IsRing w.ring.ring w.ring.head w.ring.tail w.ring.count q
  entries : full → ∀ e ∈ q ++ w.taken, e.dev ≠ 0 ∧ e.nb ≠ 0
  account : full → w.ring.statEnqueued =
    w.ring.statProcessed + UInt64.ofNat (w.ring.count + w.taken.length)

theorem NetRun.Holds.step {full : Prop} {w : NetRun k} {q : List NetEntry} (h : w.Holds full q)
    (op : NetOp) (hop : full → op.Full) :
    (w.step op).1.Holds full (netFifo k q op).1 ∧ (w.step op).2 = (netFifo k q op).2 := by
  have hlen := h.ring.length_eq
  cases op with
  | enqueue e =>
    simp only [NetRun.step, netEnqueue, netFifo, fifoPush, nextSlot_eq]
    by_cases hlt : q.length < 2 ^ k
    · rw [if_pos hlt, if_neg (by omega)]
      refine ⟨⟨h.ring.push (by omega) e, fun hf => ?_, fun hf => ?_⟩, rfl⟩
      · have hold := h.entries hf
        grind [NetOp.Full]
      · rw [h.account hf, UInt64.add_assoc, Nat.add_right_comm, UInt64.ofNat_add _ 1]
        rfl
    · rw [if_neg hlt, if_pos (by omega)]
      exact ⟨⟨h.ring, h.entries, h.account⟩, rfl⟩
  | take =>
    simp only [NetRun.step, netTake, netFifo, nextSlot_eq]
    by_cases hzero : w.ring.count = 0
    · obtain rfl := List.length_eq_zero_iff.mp (hlen.trans hzero)
      rw [if_pos hzero]
      exact ⟨h, rfl⟩
    · obtain ⟨hq, hring⟩ := h.ring.pop hzero ⟨0, 0⟩
      simp only [if_neg hzero]
      refine ⟨⟨hring, fun hf => ?_, fun hf => ?_⟩, ?_⟩
      · have hold := h.entries hf
        grind
      · dsimp only
        rw [h.account hf, List.length_cons]
        congr 2
        omega
      · rw [hq]
        rfl
  | done i =>
    simp only [NetRun.step, netFifo]
    cases hi : w.taken[i]? with
    | none => exact ⟨h, rfl⟩
    | some e =>
      refine ⟨⟨?_, fun hf => ?_, fun hf => ?_⟩, rfl⟩ <;> dsimp only [netDone]
      · split_ifs <;> exact h.ring
      · have hold := h.entries hf
        grind [List.mem_of_mem_eraseIdx]
      · obtain ⟨hlt, he⟩ := List.getElem?_eq_some_iff.mp hi
        have hfull := h.entries hf e (by grind)
        rw [if_pos hfull, List.length_eraseIdx_of_lt hlt, UInt64.add_assoc, h.account hf,
          show w.ring.count + w.taken.length = 1 + (w.ring.count + (w.taken.length - 1)) by omega,
          UInt64.ofNat_add 1]
        rfl

/-- The datagram of an entry. -/
def RxEntry.datagram (e : RxEntry) : RxDatagram := (e.data, e.sender)

/-- The ring of a socket holds `q`. -/
def RxRing.Holds (ring : RxRing) (q : List RxDatagram) : Prop :=
  IsRing (RxEntry.datagram ∘ ring.entries) ring.head ring.tail ring.count q

theorem RxRing.Holds.step {ring : RxRing} {q : List RxDatagram} (h : ring.Holds q)
    (op : RxDatagram ⊕ ℕ) :
    (rxStep ring op).1.Holds (rxFifo q op).1 ∧ (rxStep ring op).2 = (rxFifo q op).2 := by
  have hlen := IsRing.length_eq h
  cases op with
  | inl d =>
    simp only [rxStep, rxRingPush, rxFifo, fifoPush]
    by_cases hlt : q.length < socketRxRingSize
    · rw [if_pos hlt, if_neg (by omega)]
      refine ⟨?_, rfl⟩
      rw [RxRing.Holds, comp_update]
      exact IsRing.push h (by omega) _
    · rw [if_neg hlt, if_pos (by omega)]
      exact ⟨h, rfl⟩
  | inr maxlen =>
    simp only [rxStep, rxRingPop, rxFifo]
    by_cases hzero : ring.count = 0
    · obtain rfl := List.length_eq_zero_iff.mp (hlen.trans hzero)
      rw [if_pos hzero]
      exact ⟨h, rfl⟩
    · rw [if_neg hzero, RxRing.Holds, comp_update]
      obtain ⟨hq, hring⟩ := IsRing.pop h hzero _
      refine ⟨hring, ?_⟩
      rw [hq]
      rfl

/-- The ring answers every sequence of steps as a queue of its capacity does. When every entry
has a device and a buffer and no drain is in progress, the entries that were accepted are those
that were processed and those that are pending. -/
def NetRing.IsFifo (r : NetRing k) : Prop :=
  ∀ ops, let w := trace NetRun.step ⟨r, []⟩ ops
    let q := trace (netFifo k) [] ops
    w.2 = q.2 ∧ w.1.ring.count = q.1.length ∧
      w.1.ring.head.val = (w.1.ring.tail.val + w.1.ring.count) % 2 ^ k ∧
      ((∀ op ∈ ops, op.Full) → w.1.taken = [] →
        w.1.ring.statEnqueued = w.1.ring.statProcessed + UInt64.ofNat w.1.ring.count)

@[inherit_doc NetRing.IsFifo] def RxRing.IsFifo (ring : RxRing) : Prop :=
  ∀ ops, let w := trace rxStep ring ops
    let q := trace rxFifo [] ops
    w.2 = q.2 ∧ w.1.count = q.1.length ∧
      w.1.head.val = (w.1.tail.val + w.1.count) % socketRxRingSize

theorem isFifo_netRingInit (k : ℕ) : (netRingInit k).IsFifo := by
  intro ops
  have hinit : NetRun.Holds (∀ op ∈ ops, op.Full) ⟨netRingInit k, []⟩ [] :=
    ⟨⟨Nat.zero_le _, rfl, rfl⟩, by simp, fun _ => rfl⟩
  obtain ⟨h, hout⟩ := trace_simulation (p := (· ∈ ops))
    (fun w q op h hop => h.step op fun hfull => hfull op hop) hinit fun _ hop => hop
  refine ⟨hout, h.ring.length_eq.symm, h.ring.head_val, fun hfull hnone => ?_⟩
  rw [h.account hfull, hnone]
  rfl

/-- The rings of the network stack and of the sockets are bounded queues, from their
initialisation on. -/
theorem packet_rings_fifo :
    netRxInit.IsFifo ∧ netTxInit.IsFifo ∧ ∀ ring, (rxRingInit ring).IsFifo := by
  refine ⟨isFifo_netRingInit 7, isFifo_netRingInit 6, fun ring ops => ?_⟩
  have hinit : (rxRingInit ring).Holds [] := ⟨Nat.zero_le _, rfl, rfl⟩
  obtain ⟨h, hout⟩ := trace_simulation (p := (· ∈ ops)) (fun _ _ op h _ => h.step op)
    hinit fun _ hop => hop
  exact ⟨hout, (IsRing.length_eq h).symm, IsRing.head_val h⟩

end Tomahawk.Net
