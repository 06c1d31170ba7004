import Tomahawk.Net.Tcp

/-!
# What the TCP client stores and acknowledges

The segments of one stream arrive in any order. A segment is taken when its sequence number is
the expected one, so the buffer holds the beginning of the stream. The expected number goes past
bytes that do not fit in the buffer and past a FIN that comes early, and the client acknowledges
what it did not store.
-/

namespace Tomahawk.Net

open Tomahawk.Lib

variable {stream payload nb : List UInt8} {iss seq : UInt32} {pos : ℕ} {c : TcpConn} {t : Tcp}
  {h : TcpHeader} {e : TcpEvent} {flags : UInt8} {segPos : ℕ}

/-- The expected number is that of a position in the stream, and the bytes before the position
are stored as far as they fit. -/
structure Expects (stream : List UInt8) (iss : UInt32) (c : TcpConn) (pos : ℕ) : Prop where
  stored : c.recvLen = min pos tcpRecvBufSize
  next : c.rcvNext = iss + 1 + UInt32.ofNat pos
  le : pos ≤ stream.length

/-! ## One segment -/

theorem store_of_not (hno : ¬ (payload ≠ [] ∧ seq = c.rcvNext)) :
    c.store seq payload = (c, []) := if_neg hno

theorem store_state : (c.store seq payload).1.state = c.state := by
  unfold TcpConn.store
  split_ifs <;> rfl

/-- The next part of the stream is appended to the buffer. -/
theorem Stored.store (hs : Stored stream c) (hexp : Expects stream iss c pos)
    (hpayload : payload <+: stream.drop pos) (hne : payload ≠ []) (hseq : seq = c.rcvNext) :
    Stored stream (c.store seq payload).1 ∧
      Expects stream iss (c.store seq payload).1 (pos + payload.length) := by
  have hlen := hpayload.length_le
  have hstored := hexp.stored
  have hle := hexp.le
  rw [List.length_drop] at hlen
  unfold TcpConn.store
  rw [if_pos ⟨hne, hseq⟩]
  generalize hcopy : min payload.length (tcpRecvBufSize - c.recvLen) = copy
  have hpart : payload.take copy = (stream.drop c.recvLen).take copy := by
    by_cases hzero : copy = 0
    · simp [hzero]
    · have hpos : c.recvLen = pos := by omega
      obtain ⟨rest, hrest⟩ := hpayload
      rw [hpos, ← hrest, List.take_append_of_le_length (by omega)]
  constructor
  · constructor
    · rw [Bytes.slice_copyIn, Bytes.slice_getD (by omega), hs.bytes, hpart, ← List.take_add]
    · dsimp only
      omega
  · constructor
    · dsimp only
      omega
    · rw [hexp.next, UInt32.ofNat_add, UInt32.add_assoc]
    · omega

theorem receiveFin_of_no_fin (hfin : flags &&& tcpFlagFin = 0) :
    c.receiveFin flags = (c, []) := if_neg fun hne => hne hfin

/-- A FIN leaves the buffer alone and ends the reception. -/
theorem receiveFin_of_fin (hfin : flags &&& tcpFlagFin ≠ 0) :
    c.receiveFin flags =
      ({ c with rcvNext := c.rcvNext + 1, peerFin := true, sndNext := c.sndNext + 1,
                state := .timeWait },
        [⟨c.sndNext, c.rcvNext + 1, tcpFlagAck ||| tcpFlagFin, []⟩]) := if_pos hfin

/-- Nothing is stored, and what is sent has the expected number. -/
structure Idle (t : Tcp) (r : Tcp × List TcpOut) : Prop where
  buf : r.1.conn.recvBuf = t.conn.recvBuf
  size : r.1.conn.recvLen = t.conn.recvLen
  state : r.1.conn.state ≠ .synSent
  next : r.1.conn.state.Receiving → t.conn.state.Receiving ∧ r.1.conn.rcvNext = t.conn.rcvNext
  fin : r.1.conn.peerFin = true → t.conn.peerFin = true
  acks : ∀ o ∈ r.2, t.conn.state.Receiving ∧ o.ack = t.conn.rcvNext

theorem idle_refl (hstate : t.conn.state ≠ .synSent) : Idle t (t, []) :=
  ⟨rfl, rfl, hstate, fun hr => ⟨hr, rfl⟩, id, by simp⟩

theorem idle_closed (active : Bool) : Idle t (⟨{ t.conn with state := .closed }, active⟩, []) :=
  ⟨rfl, rfl, by simp, fun hr => absurd hr (by simp [TcpState.Receiving]), id, by simp⟩

/-- After the handshake an event stores nothing, or it is a segment with data or a FIN. -/
theorem tcpEvent_cases (e : TcpEvent) (hstate : t.conn.state ≠ .synSent) :
    Idle t (tcpEvent t e) ∨ ∃ pos nb h, e = .segment pos nb ∧ parseTcp nb = some h ∧ t.Takes h ∧
      tcpEvent t e =
        ({ t with conn := (t.conn.receiveData h (nb.drop (h.dataOff.toNat / 16 * 4))).1 },
          (t.conn.receiveData h (nb.drop (h.dataOff.toNat / 16 * 4))).2) := by
  have hsame := idle_refl hstate
  cases e with
  | segment pos nb =>
    simp only [tcpEvent]
    unfold tcpReceive
    by_cases hactive : t.active = true
    swap
    · rw [if_neg hactive]
      exact .inl hsame
    rw [if_pos hactive]
    cases hparse : parseTcp nb with
    | none => exact .inl hsame
    | some h =>
      dsimp only
      split_ifs with hdst hsrc
      · exact .inl hsame
      · exact .inl hsame
      unfold TcpConn.receive
      split_ifs with hrst
      · exact .inl (idle_closed t.active)
      have htakes (hrec : t.conn.state.Receiving) : t.Takes h :=
        ⟨hactive, not_not.mp hdst, not_not.mp hsrc, not_not.mp hrst, hrec⟩
      cases hs : t.conn.state with
      | synSent => exact absurd hs hstate
      | established => exact .inr ⟨pos, nb, h, rfl, hparse, htakes (.inl hs), rfl⟩
      | finWait => exact .inr ⟨pos, nb, h, rfl, hparse, htakes (.inr hs), rfl⟩
      | closed => exact .inl hsame
      | timeWait => exact .inl hsame
  | write data ok =>
    simp only [tcpEvent, tcpWrite]
    split_ifs with hclosed hempty hok
    · exact .inl hsame
    · exact .inl hsame
    all_goals
      refine .inl ⟨rfl, rfl, hstate, fun hr => ⟨hr, rfl⟩, id, fun o ho => ?_⟩
      obtain rfl := List.mem_singleton.mp ho
      exact ⟨.inl (not_not.mp hclosed), rfl⟩
  | closeFin =>
    simp only [tcpEvent, tcpCloseFin]
    split_ifs with hest
    · refine .inl ⟨rfl, rfl, by simp, fun _ => ⟨.inl hest, rfl⟩, id, fun o ho => ?_⟩
      obtain rfl := List.mem_singleton.mp ho
      exact ⟨.inl hest, rfl⟩
    · exact .inl hsame
  | closeEnd => exact .inl (idle_closed false)

/-- Positions of a stream below the size of the sequence space have different numbers. -/
theorem seq_inj {pos' : ℕ} (hpos : pos < 2 ^ 32) (hpos' : pos' < 2 ^ 32)
    (heq : iss + 1 + UInt32.ofNat pos = iss + 1 + UInt32.ofNat pos') : pos = pos' := by
  have hnat := congrArg UInt32.toNat ((UInt32.add_right_inj (iss + 1)).mp heq)
  rwa [UInt32.toNat_ofNat_of_lt' hpos, UInt32.toNat_ofNat_of_lt' hpos'] at hnat

/-- The payload of a segment of the stream that is the expected one is the next part of the
stream. -/
theorem PeerSegment.payload_of_next (hseg : PeerSegment stream iss segPos nb)
    (hparse : parseTcp nb = some h) (hlen : stream.length < 2 ^ 31)
    (hexp : Expects stream iss c pos) (hne : nb.drop tcpHeaderLen ≠ []) (hseq : h.seq = c.rcvNext) :
    nb.drop tcpHeaderLen <+: stream.drop pos := by
  have hshort := hseg.payload.length_le
  have hpayload := List.length_pos_of_ne_nil hne
  have hle := hexp.le
  simp only [List.length_drop] at hshort hpayload
  rw [(hseg.header h hparse).2, hexp.next] at hseq
  rw [← seq_inj (by omega) (by omega) hseq]
  exact hseg.payload

/-! ## Delivery in order -/

/-- What holds after the handshake, however segments are cut and ordered. -/
structure InOrder (stream : List UInt8) (iss : UInt32) (t : Tcp) : Prop where
  stored : Stored stream t.conn
  state : t.conn.state ≠ .synSent
  expects : t.conn.state.Receiving → ∃ pos, Expects stream iss t.conn pos

theorem Stored.idle (hs : Stored stream t.conn) {r : Tcp × List TcpOut} (hidle : Idle t r) :
    Stored stream r.1.conn := by
  refine ⟨?_, ?_⟩
  · rw [hidle.buf, hidle.size]
    exact hs.bytes
  · rw [hidle.size]
    exact hs.size

theorem InOrder.receiveData (hin : InOrder stream iss t) (hlen : stream.length < 2 ^ 31)
    (hseg : PeerSegment stream iss segPos nb) (hparse : parseTcp nb = some h)
    (hreceiving : t.conn.state.Receiving) :
    InOrder stream iss { t with conn := (t.conn.receiveData h (nb.drop tcpHeaderLen)).1 } := by
  obtain ⟨pos, hexp⟩ := hin.expects hreceiving
  have hstore : InOrder stream iss
      { t with conn := (t.conn.store h.seq (nb.drop tcpHeaderLen)).1 } := by
    by_cases hnext : nb.drop tcpHeaderLen ≠ [] ∧ h.seq = t.conn.rcvNext
    · have hpayload := hseg.payload_of_next hparse hlen hexp hnext.1 hnext.2
      obtain ⟨hs, he⟩ := hin.stored.store hexp hpayload hnext.1 hnext.2
      refine ⟨hs, ?_, fun _ => ⟨_, he⟩⟩
      rw [store_state]
      exact hin.state
    · rw [store_of_not hnext]
      exact hin
  unfold TcpConn.receiveData
  dsimp only
  by_cases hfin : h.flags &&& tcpFlagFin = 0
  · rw [receiveFin_of_no_fin hfin]
    exact hstore
  · rw [receiveFin_of_fin hfin]
    exact ⟨⟨hstore.stored.bytes, hstore.stored.size⟩, by simp,
      fun hr => absurd hr (by simp [TcpState.Receiving])⟩

/-- One event keeps the order, when a segment is one of the stream. -/
theorem InOrder.step (hin : InOrder stream iss t) (hlen : stream.length < 2 ^ 31)
    (hseg : ∀ pos nb, e = .segment pos nb → PeerSegment stream iss pos nb) :
    InOrder stream iss (tcpStep t e) := by
  rcases tcpEvent_cases e hin.state with hidle | ⟨pos, nb, h, rfl, hparse, htakes, hdata⟩
  · refine ⟨hin.stored.idle hidle, hidle.state, fun hr => ?_⟩
    obtain ⟨hr, hnext⟩ := hidle.next hr
    obtain ⟨pos, hexp⟩ := hin.expects hr
    exact ⟨pos, hidle.size.trans hexp.stored, hnext.trans hexp.next, hexp.le⟩
  · have hseg := hseg pos nb rfl
    rw [(hseg.header h hparse).1] at hdata
    rw [tcpStep, hdata]
    exact hin.receiveData hlen hseg hparse htakes.2.2.2.2

/-- The connection when the handshake is over. -/
def tcpConnected (localPort remotePort : UInt16) (iss : UInt32) : Tcp where
  conn := ⟨localPort, remotePort, tcpIsn + 1, iss + 1, .established, false, fun _ => 0, 0⟩
  active := true

/-- A connection that is waiting is established by a SYN-ACK alone. -/
theorem receive_of_synSent (hsyn : c.state = .synSent)
    (hest : (c.receive h nb).1.state = .established) :
    (c.receive h nb).1 = { c with rcvNext := h.seq + 1, state := .established } := by
  revert hest
  unfold TcpConn.receive TcpConn.receiveSynAck
  split_ifs <;> simp [hsyn]

/-- The handshake ends with the number behind the SYN of the peer. -/
theorem tcpReceive_eq_connected {localPort remotePort : UInt16} {synAck : List UInt8}
    (hparse : parseTcp synAck = some h)
    (hest : (tcpReceive (tcpConnect localPort remotePort) synAck).1.conn.state = .established) :
    (tcpReceive (tcpConnect localPort remotePort) synAck).1 =
      tcpConnected localPort remotePort h.seq := by
  have hactive : (tcpConnect localPort remotePort).active = true := rfl
  have hsyn : (tcpConnect localPort remotePort).conn.state = .synSent := rfl
  unfold tcpReceive at hest ⊢
  rw [if_pos hactive, hparse] at hest ⊢
  dsimp only at hest ⊢
  split_ifs at hest ⊢
  · cases hsyn.symm.trans hest
  · cases hsyn.symm.trans hest
  · rw [receive_of_synSent hsyn hest]
    rfl

theorem inOrder_connected (stream : List UInt8) (localPort remotePort : UInt16) (iss : UInt32) :
    InOrder stream iss (tcpConnected localPort remotePort iss) := by
  refine ⟨⟨rfl, by simp [tcpConnected]⟩, by simp [tcpConnected], fun _ => ⟨0, ?_⟩⟩
  constructor
  · simp [tcpConnected]
  · simp [tcpConnected]
  · simp

/-- After the handshake, whatever segments of the stream arrive in whatever order, the buffer
holds a prefix of the stream, of at most the size of the buffer. -/
theorem tcp_buffer_prefix (stream : List UInt8) (hlen : stream.length < 2 ^ 31)
    (localPort remotePort : UInt16) (synAck : List UInt8) (h : TcpHeader)
    (hparse : parseTcp synAck = some h)
    (hest : (tcpReceive (tcpConnect localPort remotePort) synAck).1.conn.state = .established)
    (events : List TcpEvent)
    (hseg : ∀ pos nb, .segment pos nb ∈ events → PeerSegment stream h.seq pos nb) :
    let t := run tcpStep (tcpReceive (tcpConnect localPort remotePort) synAck).1 events
    t.conn.recvBuf.slice 0 t.conn.recvLen <+: stream ∧ t.conn.recvLen ≤ tcpRecvBufSize := by
  have hinit : InOrder stream h.seq (tcpReceive (tcpConnect localPort remotePort) synAck).1 := by
    rw [tcpReceive_eq_connected hparse hest]
    exact inOrder_connected stream localPort remotePort h.seq
  have hguard : Guarded tcpStep (fun _ e => ∀ pos nb, e = .segment pos nb →
      PeerSegment stream h.seq pos nb) (tcpReceive (tcpConnect localPort remotePort) synAck).1
      events := by
    refine guarded_of_forall fun e he pos nb heq => hseg pos nb ?_
    rwa [← heq]
  have hrun := run_invariant (fun _ e hin hs => InOrder.step hin hlen hs) hinit hguard
  intro t
  refine ⟨?_, hrun.stored.size⟩
  rw [hrun.stored.bytes]
  exact List.take_prefix _ _

/-- A segment from port 80 of the peer to the first port of the client, with a header of 20
bytes. -/
def peerBytes (seq ack : UInt32) (flags : UInt8) (payload : List UInt8) : List UInt8 :=
  let header : List UInt8 := [0, 80, 0xC0, 0x94,
    (seq >>> 24).toUInt8, (seq >>> 16).toUInt8, (seq >>> 8).toUInt8, seq.toUInt8,
    (ack >>> 24).toUInt8, (ack >>> 16).toUInt8, (ack >>> 8).toUInt8, ack.toUInt8,
    0x50, flags, 0x20, 0, 0, 0, 0, 0]
  header ++ payload

/-- The SYN-ACK of a peer that starts just before the wrap of the sequence numbers. -/
def peerSynAck : List UInt8 :=
  peerBytes 0xFFFFFFFE (tcpIsn + 1) (tcpFlagSyn ||| tcpFlagAck) []

/-- Five bytes arrive in pieces that are swapped, repeated and overlap, across the wrap. -/
theorem tcp_buffer_prefix_swapped :
    let events : List TcpEvent := [.segment 3 (peerBytes 2 (tcpIsn + 1) tcpFlagAck [4, 5]),
      .segment 0 (peerBytes 0xFFFFFFFF (tcpIsn + 1) tcpFlagAck [1, 2, 3]),
      .segment 0 (peerBytes 0xFFFFFFFF (tcpIsn + 1) tcpFlagAck [1, 2, 3]),
      .segment 2 (peerBytes 1 (tcpIsn + 1) tcpFlagAck [3, 4]),
      .segment 3 (peerBytes 2 (tcpIsn + 1) tcpFlagAck [4, 5])]
    let t := run tcpStep (tcpReceive (tcpConnect 49300 80) peerSynAck).1 events
    t.conn.recvLen = 5 ∧
      t.conn.recvBuf.slice 0 t.conn.recvLen <+: [1, 2, 3, 4, 5] ∧
      t.conn.recvLen ≤ tcpRecvBufSize := by
  refine ⟨by decide, tcp_buffer_prefix [1, 2, 3, 4, 5] (by decide) 49300 80 peerSynAck
    ⟨80, 49300, 0xFFFFFFFE, tcpIsn + 1, 0x50, 0x12⟩ (by decide) (by decide) _ ?_⟩
  intro pos nb hmem
  simp only [List.mem_cons, TcpEvent.segment.injEq, List.not_mem_nil, or_false] at hmem
  rcases hmem with ⟨rfl, rfl⟩ | ⟨rfl, rfl⟩ | ⟨rfl, rfl⟩ | ⟨rfl, rfl⟩ | ⟨rfl, rfl⟩
  all_goals decide

/-! ## Acknowledgements -/

/-- An acknowledgement covers stored bytes, and the FIN when the whole stream is stored. -/
def AckCovers (stream : List UInt8) (iss : UInt32) (c : TcpConn) (o : TcpOut) : Prop :=
  (o.ack - (iss + 1)).toNat ≤ c.recvLen ∨
    c.peerFin = true ∧ c.recvLen = stream.length ∧
      (o.ack - (iss + 1)).toNat = stream.length + 1

instance (stream : List UInt8) (iss : UInt32) (c : TcpConn) (o : TcpOut) :
    Decidable (AckCovers stream iss c o) := by
  unfold AckCovers
  infer_instance

/-- The segments after which the client acknowledges what it stored: the payload of the
expected one is the next part of the stream and fits in the buffer, and a FIN comes when the
stream before it is stored. -/
def AckMeets (stream : List UInt8) (t : Tcp) : TcpEvent → Prop
  | .segment pos nb => ∀ h ∈ parseTcp nb, t.Takes h →
    let payload := nb.drop tcpHeaderLen
    let next := payload ≠ [] ∧ h.seq = t.conn.rcvNext
    (next → pos = t.conn.recvLen ∧ t.conn.recvLen + payload.length ≤ tcpRecvBufSize) ∧
      (h.flags &&& tcpFlagFin ≠ 0 →
        t.conn.recvLen + (if next then payload.length else 0) = stream.length)
  | _ => True

instance (stream : List UInt8) (t : Tcp) (e : TcpEvent) : Decidable (AckMeets stream t e) := by
  cases e <;> unfold AckMeets <;> infer_instance

/-- What holds after the handshake while the segments meet the condition: the expected number
is the one behind the stored bytes. -/
structure AckOk (stream : List UInt8) (iss : UInt32) (t : Tcp) : Prop where
  stored : Stored stream t.conn
  state : t.conn.state ≠ .synSent
  next : t.conn.state.Receiving → t.conn.rcvNext = iss + 1 + UInt32.ofNat t.conn.recvLen
  fin : t.conn.peerFin = true → t.conn.recvLen = stream.length

theorem Stored.le_length (hs : Stored stream c) : c.recvLen ≤ stream.length := by
  have hlen := congrArg List.length hs.bytes
  rw [Bytes.slice_length, List.length_take] at hlen
  omega

/-- The number behind `k` bytes of the stream acknowledges `k` bytes. -/
theorem ack_toNat {k : ℕ} (hk : k < 2 ^ 32) :
    (iss + 1 + UInt32.ofNat k - (iss + 1)).toNat = k := by
  rw [UInt32.add_comm, UInt32.add_sub_cancel, UInt32.toNat_ofNat_of_lt' hk]

section

variable (hok : AckOk stream iss t)
include hok

/-- What is sent with the expected number covers the stored bytes. -/
theorem AckOk.covers (hrec : t.conn.state.Receiving) {o : TcpOut} (ho : o.ack = t.conn.rcvNext) :
    (o.ack - (iss + 1)).toNat ≤ t.conn.recvLen := by
  have hsize : t.conn.recvLen ≤ 8192 := hok.stored.size
  rw [ho, hok.next hrec, ack_toNat (by omega)]

theorem AckOk.idle {r : Tcp × List TcpOut} (hidle : Idle t r) :
    AckOk stream iss r.1 ∧ ∀ o ∈ r.2, AckCovers stream iss r.1.conn o := by
  refine ⟨⟨hok.stored.idle hidle, hidle.state, fun hr => ?_, fun hf => ?_⟩, fun o ho => .inl ?_⟩
  · rw [(hidle.next hr).2, hidle.size]
    exact hok.next (hidle.next hr).1
  · rw [hidle.size]
    exact hok.fin (hidle.fin hf)
  · obtain ⟨hrec, hack⟩ := hidle.acks o ho
    rw [hidle.size]
    exact hok.covers hrec hack

/-- The data of a segment that meets the condition is stored before it is acknowledged. -/
theorem AckOk.storeSegment (hrec : t.conn.state.Receiving)
    (hpayload : payload <+: stream.drop segPos) (hmeets : payload ≠ [] ∧ seq = t.conn.rcvNext →
      segPos = t.conn.recvLen ∧ t.conn.recvLen + payload.length ≤ tcpRecvBufSize) :
    AckOk stream iss { t with conn := (t.conn.store seq payload).1 } ∧
      (t.conn.store seq payload).1.recvLen = t.conn.recvLen +
        (if payload ≠ [] ∧ seq = t.conn.rcvNext then payload.length else 0) ∧
      ∀ o ∈ (t.conn.store seq payload).2, o.ack = (t.conn.store seq payload).1.rcvNext := by
  by_cases hnext : payload ≠ [] ∧ seq = t.conn.rcvNext
  swap
  · rw [if_neg hnext, store_of_not hnext]
    exact ⟨hok, rfl, by simp⟩
  obtain ⟨rfl, hfit⟩ := hmeets hnext
  have hexp : Expects stream iss t.conn t.conn.recvLen :=
    ⟨(Nat.min_eq_left hok.stored.size).symm, hok.next hrec, hok.stored.le_length⟩
  obtain ⟨hs, he⟩ := hok.stored.store hexp hpayload hnext.1 hnext.2
  have hlen : (t.conn.store seq payload).1.recvLen = t.conn.recvLen + payload.length :=
    he.stored.trans (Nat.min_eq_left hfit)
  rw [if_pos hnext]
  refine ⟨⟨hs, ?_, fun _ => ?_, fun hf => ?_⟩, hlen, ?_⟩
  · rw [store_state]
    exact hok.state
  · rw [he.next, hlen]
  · -- After a FIN the stream is complete, so there is no next part.
    have hfin : t.conn.peerFin = true := by
      unfold TcpConn.store at hf
      split_ifs at hf
      exact hf
    have hlong := hpayload.length_le
    have hpos := List.length_pos_of_ne_nil hnext.1
    rw [List.length_drop, hok.fin hfin] at hlong
    omega
  · unfold TcpConn.store
    rw [if_pos hnext]
    simp [TcpConn.segment]

/-- A FIN that ends the stored stream is acknowledged with it. -/
theorem AckOk.receiveFin (hrec : t.conn.state.Receiving)
    (hfin : flags &&& tcpFlagFin ≠ 0 → t.conn.recvLen = stream.length) :
    AckOk stream iss { t with conn := (t.conn.receiveFin flags).1 } ∧
      (∀ o, AckCovers stream iss t.conn o → AckCovers stream iss (t.conn.receiveFin flags).1 o) ∧
      ∀ o ∈ (t.conn.receiveFin flags).2, AckCovers stream iss (t.conn.receiveFin flags).1 o := by
  by_cases hflag : flags &&& tcpFlagFin = 0
  · rw [receiveFin_of_no_fin hflag]
    exact ⟨hok, fun _ ho => ho, by simp⟩
  have hall := hfin hflag
  have hsize : t.conn.recvLen ≤ 8192 := hok.stored.size
  rw [receiveFin_of_fin hflag]
  refine ⟨⟨⟨hok.stored.bytes, hok.stored.size⟩, by simp, fun hr => ?_, fun _ => hall⟩,
    fun o ho => ho.imp id fun hend => ⟨rfl, hend.2⟩, fun o ho => ?_⟩
  · exact absurd hr (by simp [TcpState.Receiving])
  · obtain rfl := List.mem_singleton.mp ho
    have hnext : t.conn.rcvNext + 1 = iss + 1 + UInt32.ofNat (t.conn.recvLen + 1) := by
      rw [hok.next hrec, UInt32.ofNat_add, UInt32.add_assoc]
      rfl
    right
    refine ⟨rfl, hall, ?_⟩
    rw [hnext, ack_toNat (by omega), hall]

/-- One event that meets the condition sends only acknowledgements of what is stored. -/
theorem AckOk.event (hmeets : AckMeets stream t e)
    (hseg : ∀ pos nb, e = .segment pos nb → PeerSegment stream iss pos nb) :
    AckOk stream iss (tcpStep t e) ∧
      ∀ o ∈ (tcpEvent t e).2, AckCovers stream iss (tcpStep t e).conn o := by
  rcases tcpEvent_cases e hok.state with hidle | ⟨pos, nb, h, rfl, hparse, htakes, hdata⟩
  · exact hok.idle hidle
  · have hseg := hseg pos nb rfl
    obtain ⟨hnext, hfin⟩ := hmeets h hparse htakes
    have hrec := htakes.2.2.2.2
    rw [(hseg.header h hparse).1] at hdata
    simp only [tcpStep, hdata, TcpConn.receiveData]
    obtain ⟨hstore, hlen, hacks⟩ := hok.storeSegment hrec hseg.payload hnext
    have hrec' : (t.conn.store h.seq (nb.drop tcpHeaderLen)).1.state.Receiving := by
      rw [store_state]
      exact hrec
    obtain ⟨hend, hkeep, hacksFin⟩ := hstore.receiveFin hrec' fun hf => hlen.trans (hfin hf)
    refine ⟨hend, fun o ho => ?_⟩
    rcases List.mem_append.mp ho with ho | ho
    · exact hkeep o (.inl (hstore.covers hrec' (hacks o ho)))
    · exact hacksFin o ho

end

theorem ackOk_connected (stream : List UInt8) (localPort remotePort : UInt16) (iss : UInt32) :
    AckOk stream iss (tcpConnected localPort remotePort iss) := by
  refine ⟨(inOrder_connected stream localPort remotePort iss).stored, by simp [tcpConnected],
    fun _ => by simp [tcpConnected], fun hf => ?_⟩
  simp [tcpConnected] at hf

/-- In every run whose segments meet the condition, what an event sends acknowledges only bytes
that are in the buffer by then, and the FIN when the whole stream is; and `peer_fin` is set only
when the whole stream is in the buffer. -/
theorem tcp_acks_stored (stream : List UInt8) (localPort remotePort : UInt16)
    (synAck : List UInt8) (h : TcpHeader) (hparse : parseTcp synAck = some h)
    (hest : (tcpReceive (tcpConnect localPort remotePort) synAck).1.conn.state = .established)
    (events : List TcpEvent) (e : TcpEvent)
    (hseg : ∀ pos nb, .segment pos nb ∈ events ++ [e] → PeerSegment stream h.seq pos nb)
    (hmeets : Guarded tcpStep (AckMeets stream)
      (tcpReceive (tcpConnect localPort remotePort) synAck).1 (events ++ [e])) :
    let t := run tcpStep (tcpReceive (tcpConnect localPort remotePort) synAck).1 events
    let t' := tcpStep t e
    t'.conn.recvBuf.slice 0 t'.conn.recvLen <+: stream ∧
      (∀ o ∈ (tcpEvent t e).2, AckCovers stream h.seq t'.conn o) ∧
      (t'.conn.peerFin = true → t'.conn.recvBuf.slice 0 t'.conn.recvLen = stream) := by
  have hpeer : ∀ a ∈ events ++ [e], ∀ pos nb, a = .segment pos nb →
      PeerSegment stream h.seq pos nb := by
    intro a ha pos nb heq
    apply hseg pos nb
    rwa [← heq]
  have hinit : AckOk stream h.seq (tcpReceive (tcpConnect localPort remotePort) synAck).1 := by
    rw [tcpReceive_eq_connected hparse hest]
    exact ackOk_connected stream localPort remotePort h.seq
  obtain ⟨hevents, hlast, -⟩ := guarded_append.mp (hmeets.and_forall hpeer)
  have hrun : AckOk stream h.seq (run tcpStep _ events) :=
    run_invariant (I := AckOk stream h.seq) (fun _ _ hok hg => (hok.event hg.1 hg.2).1) hinit
      hevents
  obtain ⟨hok, hacks⟩ := hrun.event hlast.1 hlast.2
  intro t t'
  refine ⟨?_, hacks, fun hf => ?_⟩
  · rw [hok.stored.bytes]
    exact List.take_prefix _ _
  · rw [hok.stored.bytes, hok.fin hf, List.take_length]

/-- Two segments, with the last one repeated. -/
def repeatedSegments : List TcpEvent :=
  [.segment 0 (peerBytes 0xFFFFFFFF (tcpIsn + 1) tcpFlagAck [1, 2, 3]),
    .segment 3 (peerBytes 2 (tcpIsn + 1) tcpFlagAck [4, 5]),
    .segment 3 (peerBytes 2 (tcpIsn + 1) tcpFlagAck [4, 5])]

/-- The FIN arrives behind them. -/
theorem tcp_acks_stored_fin :
    let t := run tcpStep (tcpReceive (tcpConnect 49300 80) peerSynAck).1 repeatedSegments
    let e : TcpEvent := .segment 5 (peerBytes 4 (tcpIsn + 1) (tcpFlagAck ||| tcpFlagFin) [])
    let t' := tcpStep t e
    t'.conn.peerFin = true ∧ t'.conn.recvBuf.slice 0 t'.conn.recvLen = [1, 2, 3, 4, 5] ∧
      ∀ o ∈ (tcpEvent t e).2, AckCovers [1, 2, 3, 4, 5] 0xFFFFFFFE t'.conn o := by
  have hfin := tcp_acks_stored [1, 2, 3, 4, 5] 49300 80 peerSynAck
    ⟨80, 49300, 0xFFFFFFFE, tcpIsn + 1, 0x50, 0x12⟩ (by decide) (by decide)
    repeatedSegments (.segment 5 (peerBytes 4 (tcpIsn + 1) (tcpFlagAck ||| tcpFlagFin) []))
    (fun pos nb hmem => by
      simp only [repeatedSegments, List.cons_append, List.nil_append, List.mem_cons,
        TcpEvent.segment.injEq, List.not_mem_nil, or_false] at hmem
      rcases hmem with ⟨rfl, rfl⟩ | ⟨rfl, rfl⟩ | ⟨rfl, rfl⟩ | ⟨rfl, rfl⟩
      all_goals decide) (by decide)
  exact ⟨by decide, hfin.2.2 (by decide), hfin.2.1⟩

/-- A FIN that arrives before the two bytes in front of it sets `peer_fin` with an empty buffer
and is answered with an acknowledgement of one byte. A segment of which half fits in the buffer
is acknowledged as a whole. -/
theorem tcp_acks_lost :
    (let stream : List UInt8 := [1, 2]
      let fin := peerBytes 1 (tcpIsn + 1) (tcpFlagAck ||| tcpFlagFin) []
      let t := (tcpReceive (tcpConnect 49300 80) peerSynAck).1
      let r := tcpReceive t fin
      PeerSegment stream 0xFFFFFFFE 2 fin ∧ r.1.conn.peerFin = true ∧ r.1.conn.recvLen = 0 ∧
        ∃ o ∈ r.2, ¬ AckCovers stream 0xFFFFFFFE r.1.conn o) ∧
    (let stream : List UInt8 := List.replicate 8194 7
      let part := fun pos n =>
        peerBytes (0xFFFFFFFF + UInt32.ofNat pos) (tcpIsn + 1) tcpFlagAck (List.replicate n 7)
      let starts := [0, 1365, 2730, 4095, 5460, 6825]
      let t := run tcpStep (tcpReceive (tcpConnect 49300 80) peerSynAck).1
        (starts.map fun pos => .segment pos (part pos 1365))
      let r := tcpReceive t (part 8190 4)
      (∀ pos ∈ starts, PeerSegment stream 0xFFFFFFFE pos (part pos 1365)) ∧
        PeerSegment stream 0xFFFFFFFE 8190 (part 8190 4) ∧ r.1.conn.recvLen = 8192 ∧
        ∃ o ∈ r.2, ¬ AckCovers stream 0xFFFFFFFE r.1.conn o) := by
  decide +kernel

end Tomahawk.Net
