import Tomahawk.Lib.Bytes
import Tomahawk.Lib.Run
import Tomahawk.Net.Udp

/-!
# The TCP client

The one connection of `tcp.c`: the handshake, the receive path, and the calls that send. A
segment is the bytes of a buffer from its TCP header on. The address of its sender is only
logged, and a call that sends can fail after it took its sequence numbers into account, so
neither is part of the state.
-/

namespace Tomahawk.Net

open Tomahawk.Lib

/-- `TCP_RECV_BUF_SIZE` -/
def tcpRecvBufSize : ℕ := 8192

/-- `TCP_HEADER_LEN` -/
def tcpHeaderLen : ℕ := 20

/-- `TCP_ISN` -/
def tcpIsn : UInt32 := 0xC0DE0000

/-- `TCP_FLAG_FIN` -/
def tcpFlagFin : UInt8 := 0x01

/-- `TCP_FLAG_SYN` -/
def tcpFlagSyn : UInt8 := 0x02

/-- `TCP_FLAG_RST` -/
def tcpFlagRst : UInt8 := 0x04

/-- `TCP_FLAG_PSH` -/
def tcpFlagPsh : UInt8 := 0x08

/-- `TCP_FLAG_ACK` -/
def tcpFlagAck : UInt8 := 0x10

/-- `tcp_state_t` -/
inductive TcpState where
  | closed
  | synSent
  | established
  | finWait
  | timeWait
  deriving DecidableEq

/-- `tcp_conn_t`, without the device and the remote address. -/
structure TcpConn where
  localPort : UInt16
  remotePort : UInt16
  sndNext : UInt32
  rcvNext : UInt32
  state : TcpState
  peerFin : Bool
  recvBuf : Bytes
  recvLen : ℕ

/-- A 32-bit number from four bytes in network order. -/
def ntohl (b0 b1 b2 b3 : UInt8) : UInt32 :=
  (b0.toUInt32 <<< 24) ||| (b1.toUInt32 <<< 16) ||| (b2.toUInt32 <<< 8) ||| b3.toUInt32

/-- The fields of `tcp_header_t` that are read, in host order. -/
structure TcpHeader where
  srcPort : UInt16
  dstPort : UInt16
  seq : UInt32
  ackSeq : UInt32
  dataOff : UInt8
  flags : UInt8
  deriving DecidableEq

/-- The header of a segment of at least `TCP_HEADER_LEN` bytes. -/
def parseTcp (nb : List UInt8) : Option TcpHeader :=
  match nb with
  | s0 :: s1 :: d0 :: d1 :: q0 :: q1 :: q2 :: q3 :: a0 :: a1 :: a2 :: a3 :: off :: flags ::
      _ :: _ :: _ :: _ :: _ :: _ :: _ =>
    some ⟨ntohs (loadU16 s0 s1), ntohs (loadU16 d0 d1), ntohl q0 q1 q2 q3, ntohl a0 a1 a2 a3, off,
      flags⟩
  | _ => none

/-- A segment that `tcp_send_segment` is called with. -/
structure TcpOut where
  seq : UInt32
  ack : UInt32
  flags : UInt8
  payload : List UInt8
  deriving DecidableEq

/-- `active_conn`: the connection, and whether segments are passed to it. -/
structure Tcp where
  conn : TcpConn
  active : Bool

/-- The connection of `tcp_connect` once the SYN is sent. -/
def tcpConnect (localPort remotePort : UInt16) : Tcp where
  conn := ⟨localPort, remotePort, tcpIsn + 1, 0, .synSent, false, fun _ => 0, 0⟩
  active := true

/-- `tcp_send_segment` with the sequence numbers of the connection. -/
def TcpConn.segment (c : TcpConn) (flags : UInt8) (payload : List UInt8) : TcpOut :=
  ⟨c.sndNext, c.rcvNext, flags, payload⟩

/-- The branch of `tcp_receive` for `TCP_STATE_SYN_SENT`. -/
def TcpConn.receiveSynAck (c : TcpConn) (h : TcpHeader) : TcpConn × List TcpOut :=
  if h.flags &&& (tcpFlagSyn ||| tcpFlagAck) = tcpFlagSyn ||| tcpFlagAck then
    if h.ackSeq ≠ c.sndNext then (c, [])
    else
      let c := { c with rcvNext := h.seq + 1 }
      ({ c with state := .established }, [c.segment tcpFlagAck []])
  else (c, [])

/-- The payload of a segment is stored when it is the next one. What does not fit is left out,
and `rcv_next` goes past the whole segment. -/
def TcpConn.store (c : TcpConn) (seq : UInt32) (payload : List UInt8) : TcpConn × List TcpOut :=
  if payload ≠ [] ∧ seq = c.rcvNext then
    let copy := min payload.length (tcpRecvBufSize - c.recvLen)
    let c := { c with
      recvBuf := c.recvBuf.copyIn c.recvLen copy (fun k => payload.getD k 0) 0
      recvLen := c.recvLen + copy
      rcvNext := c.rcvNext + UInt32.ofNat payload.length }
    (c, [c.segment tcpFlagAck []])
  else (c, [])

/-- A FIN of the peer, whatever its sequence number. -/
def TcpConn.receiveFin (c : TcpConn) (flags : UInt8) : TcpConn × List TcpOut :=
  if flags &&& tcpFlagFin ≠ 0 then
    let c := { c with rcvNext := c.rcvNext + 1, peerFin := true }
    ({ c with sndNext := c.sndNext + 1, state := .timeWait },
      [c.segment (tcpFlagAck ||| tcpFlagFin) []])
  else (c, [])

/-- The branch of `tcp_receive` for `TCP_STATE_ESTABLISHED` and `TCP_STATE_FIN_WAIT`. -/
def TcpConn.receiveData (c : TcpConn) (h : TcpHeader) (payload : List UInt8) :
    TcpConn × List TcpOut :=
  let r := c.store h.seq payload
  let f := r.1.receiveFin h.flags
  (f.1, r.2 ++ f.2)

/-- `tcp_receive` once the segment is known to be for the connection. -/
def TcpConn.receive (c : TcpConn) (h : TcpHeader) (nb : List UInt8) : TcpConn × List TcpOut :=
  let hdrLen := h.dataOff.toNat / 16 * 4
  if h.flags &&& tcpFlagRst ≠ 0 then ({ c with state := .closed }, [])
  else
    match c.state with
    | .synSent => c.receiveSynAck h
    | .established => c.receiveData h (nb.drop hdrLen)
    | .finWait => c.receiveData h (nb.drop hdrLen)
    | _ => (c, [])

/-- `tcp_receive`: the connection after it, and what it sends. -/
def tcpReceive (t : Tcp) (nb : List UInt8) : Tcp × List TcpOut :=
  if t.active then
    match parseTcp nb with
    | none => (t, [])
    | some h =>
      if h.dstPort ≠ t.conn.localPort then (t, [])
      else if h.srcPort ≠ t.conn.remotePort then (t, [])
      else
        let r := t.conn.receive h nb
        ({ t with conn := r.1 }, r.2)
  else (t, [])

/-- `tcp_write`. The flag says whether the segment went out. -/
def tcpWrite (t : Tcp) (data : List UInt8) (ok : Bool) : Tcp × List TcpOut :=
  if t.conn.state ≠ .established then (t, [])
  else if data = [] then (t, [])
  else
    let c := t.conn
    let sent := c.segment (tcpFlagPsh ||| tcpFlagAck) data
    (if ok then { t with conn := { c with sndNext := c.sndNext + UInt32.ofNat data.length } } else t,
      [sent])

/-- `tcp_close` up to its wait for the peer. -/
def tcpCloseFin (t : Tcp) : Tcp × List TcpOut :=
  let c := t.conn
  if c.state = .established then
    ({ t with conn := { c with sndNext := c.sndNext + 1, state := .finWait } },
      [c.segment (tcpFlagFin ||| tcpFlagAck) []])
  else (t, [])

/-- The end of `tcp_close`. -/
def tcpCloseEnd (t : Tcp) : Tcp × List TcpOut :=
  ({ conn := { t.conn with state := .closed }, active := false }, [])

/-- What happens to a connection. The position that a segment has in the stream of the peer is
not known to the code. -/
inductive TcpEvent where
  | segment (pos : ℕ) (nb : List UInt8)
  | write (data : List UInt8) (ok : Bool)
  | closeFin
  | closeEnd

/-- An event, with what is sent. -/
def tcpEvent (t : Tcp) : TcpEvent → Tcp × List TcpOut
  | .segment _ nb => tcpReceive t nb
  | .write data ok => tcpWrite t data ok
  | .closeFin => tcpCloseFin t
  | .closeEnd => tcpCloseEnd t

/-- The connection after an event. -/
def tcpStep (t : Tcp) (e : TcpEvent) : Tcp := (tcpEvent t e).1

/-! ## The stream of the peer -/

/-- A segment with a header of 20 bytes whose payload is the part of the stream at its
position. The stream begins behind the sequence number `iss` of the SYN. -/
structure PeerSegment (stream : List UInt8) (iss : UInt32) (pos : ℕ) (nb : List UInt8) : Prop where
  header : ∀ h ∈ parseTcp nb, h.dataOff.toNat / 16 * 4 = tcpHeaderLen ∧
    h.seq = iss + 1 + UInt32.ofNat pos
  payload : nb.drop tcpHeaderLen <+: stream.drop pos

instance (stream : List UInt8) (iss : UInt32) (pos : ℕ) (nb : List UInt8) :
    Decidable (PeerSegment stream iss pos nb) :=
  decidable_of_iff ((∀ h ∈ parseTcp nb, h.dataOff.toNat / 16 * 4 = tcpHeaderLen ∧
      h.seq = iss + 1 + UInt32.ofNat pos) ∧ nb.drop tcpHeaderLen <+: stream.drop pos)
    ⟨fun h => ⟨h.1, h.2⟩, fun h => ⟨h.1, h.2⟩⟩

/-- The buffer holds the beginning of the stream. -/
structure Stored (stream : List UInt8) (c : TcpConn) : Prop where
  bytes : c.recvBuf.slice 0 c.recvLen = stream.take c.recvLen
  size : c.recvLen ≤ tcpRecvBufSize

/-- The connection takes data. -/
def TcpState.Receiving (s : TcpState) : Prop := s = .established ∨ s = .finWait

instance (s : TcpState) : Decidable s.Receiving :=
  inferInstanceAs (Decidable (s = .established ∨ s = .finWait))

/-- The segment with this header is for the connection, and its data and FIN are looked at. -/
def Tcp.Takes (t : Tcp) (h : TcpHeader) : Prop :=
  t.active = true ∧ h.dstPort = t.conn.localPort ∧ h.srcPort = t.conn.remotePort ∧
    h.flags &&& tcpFlagRst = 0 ∧ t.conn.state.Receiving

instance (t : Tcp) (h : TcpHeader) : Decidable (t.Takes h) := by
  unfold Tcp.Takes
  infer_instance

end Tomahawk.Net
