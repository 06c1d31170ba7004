import Tomahawk.Lib.Programs
import Tomahawk.Net.Packets

/-!
# The network stack

The send and receive paths of the stack over packet buffers. A driver that loops frames back
calls the receive path, which may send an answer, so the functions take what a driver does as a
parameter, and `driverSend` closes the circle. Each level takes another buffer, so it ends when
there is none. A buffer is given by its descriptor and the bytes between `data` and `data + len`;
the places that are used in buffers are recorded. What a store outside of a buffer does to other
memory is not part of the model. Counters and messages are left out.
-/

namespace Tomahawk.Net

open Tomahawk.Lib

/-- `NETBUF_MAX_SIZE` -/
def netbufMaxSize : ℕ := 2048

/-- `NETBUF_HEADROOM` -/
def netbufHeadroom : ℕ := 64

/-- `netbuf_t`: which one of the pool it is, the offset of `data` from `buf`, and the `len` bytes
from there on. -/
structure Netbuf where
  idx : ℕ
  data : ℤ
  bytes : List UInt8

/-- Some bytes of a buffer, from an offset on. -/
structure Span where
  start : ℤ
  size : ℕ
  deriving DecidableEq

/-- The bytes are in the buffer. -/
def Span.Inside (sp : Span) : Prop := 0 ≤ sp.start ∧ sp.start + sp.size ≤ netbufMaxSize

instance (sp : Span) : Decidable sp.Inside := instDecidableAnd

/-- What a device does with a frame: `lo_send`, or a driver that takes a copy. -/
inductive Driver where
  | loopback
  | nic

/-- What the stack reads of `net_device_t`. There is no driver when `ops` or `send` is null. -/
structure Device where
  mac : MacAddr
  ip : Ipv4Addr
  netmask : Ipv4Addr
  gateway : Ipv4Addr
  driver : Option Driver

/-- The states of an entry of the ARP cache. -/
inductive ArpState where
  | free
  | pending
  | resolved
  deriving DecidableEq

/-- `arp_entry_t` -/
structure ArpEntry where
  ip : Ipv4Addr
  mac : MacAddr
  state : ArpState
  deriving DecidableEq

/-- The state of the stack. -/
structure Stack where
  /-- `netbuf_free_list` -/
  free : List ℕ
  /-- Whether a buffer was freed that was in the list. -/
  freedTwice : Bool
  /-- What was used of buffers, newest first. -/
  spans : List Span
  arpCache : List ArpEntry
  ipId : UInt16
  binds : BindTable
  /-- The calls of receive callbacks, newest first. -/
  delivered : List (UdpCallback × Ipv4Addr × Datagram)
  tcp : Tcp
  /-- The fields `dev` and `remote_ip` of the connection. -/
  tcpDev : Device
  tcpRemote : Ipv4Addr
  /-- What the drivers of real devices return, one call after the other. -/
  nicReturns : ℕ → ℤ

/-! ## Packet buffers -/

/-- Record that bytes of a buffer are used. -/
def use (start : ℤ) (size : ℕ) : Prog Stack Unit :=
  modify fun s => { s with spans := ⟨start, size⟩ :: s.spans }

/-- Record where a buffer is now. -/
def Netbuf.mark (nb : Netbuf) : Prog Stack Unit := use nb.data nb.bytes.length

/-- `netbuf_alloc` -/
def netbufAlloc : Prog Stack (Option Netbuf) := fun s =>
  match s.free with
  | [] => some (none, s)
  | i :: rest => some (some ⟨i, 0, []⟩, { s with free := rest })

/-- `netbuf_free` -/
def netbufFree (nb : Netbuf) : Prog Stack Unit :=
  modify fun s => { s with
    free := nb.idx :: s.free
    freedTwice := s.freedTwice || decide (nb.idx ∈ s.free) }

/-- The frame of every function that makes a message: allocate a buffer or return, build and send
the message, and free the buffer. -/
def withNetbuf {α : Type} (failed : α) (body : Netbuf → Prog Stack α) : Prog Stack α := do
  match ← netbufAlloc with
  | none => pure failed
  | some nb => do
    let ret ← body nb
    netbufFree nb
    pure ret

/-- The bytes that a 16-bit length leaves. -/
def cut16 (l : List UInt8) : List UInt8 := l.take (l.length % 65536)

/-- `netbuf_reserve` -/
def netbufReserve (nb : Netbuf) (headroom : ℕ) : Prog Stack Netbuf := do
  let nb := { nb with data := nb.data + headroom }
  nb.mark
  pure nb

/-- `netbuf_push`, and storing the header in the new space. -/
def netbufPush (nb : Netbuf) (header : List UInt8) : Prog Stack Netbuf := do
  let nb := { nb with data := nb.data - header.length, bytes := cut16 (header ++ nb.bytes) }
  nb.mark
  use nb.data header.length
  pure nb

/-- `netbuf_put`, and storing the payload in the new space. -/
def netbufPut (nb : Netbuf) (payload : List UInt8) : Prog Stack Netbuf := do
  use (nb.data + nb.bytes.length) payload.length
  let nb := { nb with bytes := cut16 (nb.bytes ++ payload) }
  nb.mark
  pure nb

/-- The payload of a message, if there is one. -/
def netbufAppend (nb : Netbuf) (payload : List UInt8) : Prog Stack Netbuf :=
  if payload = [] then pure nb else netbufPut nb payload

/-- `netbuf_pull` -/
def netbufPull (nb : Netbuf) (len : ℕ) : Prog Stack Netbuf := do
  let len := min len nb.bytes.length
  let nb := { nb with data := nb.data + len, bytes := nb.bytes.drop len }
  nb.mark
  pure nb

/-- Clamp `len`. -/
def netbufTrim (nb : Netbuf) (len : ℕ) : Prog Stack Netbuf := do
  let nb := { nb with bytes := nb.bytes.take len }
  nb.mark
  pure nb

/-- Replace bytes of a message. -/
def storeAt (l : List UInt8) (k : ℕ) : List UInt8 → List UInt8
  | [] => l
  | b :: bs => storeAt (l.set k b) (k + 1) bs

/-- Store a field of a header that is there already. -/
def netbufStore (nb : Netbuf) (k : ℕ) (field : List UInt8) : Prog Stack Netbuf := do
  use (nb.data + k) field.length
  pure { nb with bytes := storeAt nb.bytes k field }

/-! ## The ARP cache -/

/-- `arp_cache_lookup` -/
def arpCacheLookup (cache : List ArpEntry) (ip : Ipv4Addr) : Option MacAddr :=
  (cache.find? fun e => decide (e.state = .resolved ∧ e.ip = ip)).map ArpEntry.mac

/-- `arp_cache_update` -/
def arpCacheUpdate (cache : List ArpEntry) (ip : Ipv4Addr) (mac : MacAddr) : List ArpEntry :=
  match cache.findIdx? fun e => decide (e.state ≠ .free ∧ e.ip = ip) with
  | some i => cache.modify i fun e => { e with mac := mac, state := .resolved }
  | none =>
    match cache.findIdx? fun e => decide (e.state = .free) with
    | some i => cache.set i ⟨ip, mac, .resolved⟩
    | none => cache.set 0 ⟨ip, mac, .resolved⟩

/-- The entry of a request that is on its way. -/
def arpCachePending (cache : List ArpEntry) (ip : Ipv4Addr) : List ArpEntry :=
  match cache.findIdx? fun e => decide (e.state = .free) with
  | some i => cache.set i ⟨ip, MacAddr.zero, .pending⟩
  | none => cache

/-- Change the cache. -/
def setArpCache (u : List ArpEntry → List ArpEntry) : Prog Stack Unit :=
  modify fun s => { s with arpCache := u s.arpCache }

/-! ## Sending -/

section Paths

/- What the driver of a device does with a frame. -/
variable (send : Device → Netbuf → Prog Stack ℤ)

/-- `ethernet_send_frame` -/
def ethernetSendFrame (dev : Device) (nb : Netbuf) (dst : MacAddr) (ethertype : ℕ) :
    Prog Stack ℤ :=
  match dev.driver with
  | none => pure (-1)
  | some _ => do
    let nb ← netbufPush nb (ethHeader dst dev.mac ethertype)
    send dev nb

/-- `arp_send_request` -/
def arpSendRequest (dev : Device) (targetIp : Ipv4Addr) : Prog Stack ℤ :=
  withNetbuf (-1) fun nb => do
    let nb ← netbufReserve nb netbufHeadroom
    let nb ← netbufPut nb (arpHeader 1 dev.mac dev.ip MacAddr.zero targetIp)
    setArpCache fun cache => arpCachePending cache targetIp
    ethernetSendFrame send dev nb MacAddr.broadcast ethertypeArp

/-- `arp_resolve` -/
def arpResolve (dev : Device) (ip : Ipv4Addr) : Prog Stack (Option MacAddr) := do
  let s ← get
  match arpCacheLookup s.arpCache ip with
  | some mac => pure (some mac)
  | none => do
    let _ ← arpSendRequest send dev ip
    pure none

/-- The address that is resolved for a destination: itself on the link, else the gateway if there
is one. -/
def nextHop (dev : Device) (dst : Ipv4Addr) : Ipv4Addr :=
  if ¬ (dev.netmask ≠ Ipv4Addr.zero ∧ dst.land dev.netmask = dev.ip.land dev.netmask) ∧
      dev.gateway ≠ Ipv4Addr.zero then dev.gateway
  else dst

/-- `ip_id_counter++` -/
def takeIpId : Prog Stack ℕ := fun s => some (s.ipId.toNat, { s with ipId := s.ipId + 1 })

/-- `ipv4_send` -/
def ipv4Send (dev : Device) (nb : Netbuf) (dst : Ipv4Addr) (protocol : UInt8) :
    Prog Stack ℤ := do
  let id ← takeIpId
  let header := ipv4Header (20 + nb.bytes.length) id protocol dev.ip dst
  let nb ← netbufPush nb header
  let nb ← netbufStore nb 10 (le16 (netChecksum header 0))
  if dst = Ipv4Addr.broadcast ∨ dst = dev.ip.orNot dev.netmask then
    ethernetSendFrame send dev nb MacAddr.broadcast ethertypeIpv4
  else do
    match ← arpResolve send dev (nextHop dev dst) with
    | none => pure (-1)
    | some mac => ethernetSendFrame send dev nb mac ethertypeIpv4

/-- The bytes of a message that a caller passes. -/
def payloadOf (data : Option Bytes) (len : UInt16) : List UInt8 :=
  match data with
  | none => []
  | some d => d.slice 0 len.toNat

/-- `udp_send` -/
def udpSend (dev : Device) (dstIp : Ipv4Addr) (srcPort dstPort : UInt16) (data : Option Bytes)
    (dataLen : UInt16) : Prog Stack ℤ :=
  withNetbuf (-1) fun nb => do
    let nb ← netbufReserve nb netbufHeadroom
    let nb ← netbufAppend nb (payloadOf data dataLen)
    let udpLen := (8 + dataLen.toNat) % 65536
    let nb ← netbufPush nb (udpHeader srcPort dstPort udpLen)
    let sum := netChecksum nb.bytes (wordSum (pseudoHeader dev.ip dstIp ipProtoUdp udpLen))
    let nb ← netbufStore nb 6 (le16 (if sum = 0 then 65535 else sum))
    ipv4Send send dev nb dstIp ipProtoUdp

/-- `icmp_send_echo_request` -/
def icmpSendEchoRequest (dev : Device) (dst : Ipv4Addr) (id seq : UInt16) (data : Option Bytes)
    (dataLen : UInt16) : Prog Stack ℤ :=
  withNetbuf (-1) fun nb => do
    let nb ← netbufReserve nb netbufHeadroom
    let nb ← netbufPut nb (icmpHeader id seq)
    let nb ← netbufAppend nb (payloadOf data dataLen)
    let nb ← netbufStore nb 2 (le16 (netChecksum nb.bytes 0))
    ipv4Send send dev nb dst ipProtoIcmp

/-- `tcp_send_segment` -/
def tcpSendSegment (seq ack : UInt32) (flags : UInt8) (payload : List UInt8) : Prog Stack ℤ :=
  withNetbuf (-1) fun nb => do
    let s ← get
    let nb ← netbufReserve nb netbufHeadroom
    let nb ← netbufAppend nb payload
    let nb ← netbufPush nb
      (tcpHeader s.tcp.conn.localPort s.tcp.conn.remotePort seq ack flags)
    let segLen := (20 + payload.length) % 65536
    let sum := netChecksum nb.bytes
      (wordSum (pseudoHeader s.tcpDev.ip s.tcpRemote ipProtoTcp segLen))
    let nb ← netbufStore nb 16 (le16 sum)
    ipv4Send send s.tcpDev nb s.tcpRemote ipProtoTcp

/-- Change the connection. -/
def setConn (u : TcpConn → TcpConn) : Prog Stack Unit :=
  modify fun s => { s with tcp := { s.tcp with conn := u s.tcp.conn } }

/-- `tcp_send_segment` without payload, with the sequence numbers of the connection. -/
def tcpSendFlags (flags : UInt8) : Prog Stack ℤ := do
  let s ← get
  tcpSendSegment send s.tcp.conn.sndNext s.tcp.conn.rcvNext flags []

/-- `tcp_write` -/
def tcpWriteBytes (data : List UInt8) : Prog Stack ℤ := do
  let s ← get
  if s.tcp.conn.state ≠ .established then pure (-1)
  else if data = [] then pure 0
  else do
    let rc ← tcpSendSegment send s.tcp.conn.sndNext s.tcp.conn.rcvNext
      (tcpFlagPsh ||| tcpFlagAck) data
    if rc = 0 then do
      setConn fun c => { c with sndNext := c.sndNext + UInt32.ofNat data.length }
      pure rc
    else pure rc

/-! ## Receiving -/

/-- `arp_receive` -/
def arpReceive (dev : Device) (nb : Netbuf) : Prog Stack Unit :=
  let p := nb.bytes
  if p.length < 28 then pure ()
  else if be16At p 0 ≠ 1 ∨ be16At p 2 ≠ ethertypeIpv4 then pure ()
  else do
    setArpCache fun cache => arpCacheUpdate cache (ipAt p 14) (macAt p 8)
    if be16At p 6 = 1 ∧ ipAt p 24 = dev.ip then
      withNetbuf () fun reply => do
        let reply ← netbufReserve reply netbufHeadroom
        let reply ← netbufPut reply (arpHeader 2 dev.mac dev.ip (macAt p 8) (ipAt p 14))
        let _ ← ethernetSendFrame send dev reply (macAt p 8) ethertypeArp
        pure ()
    else pure ()

/-- `icmp_receive`. Other messages than echo requests are only printed. -/
def icmpReceive (dev : Device) (nb : Netbuf) (src : Ipv4Addr) : Prog Stack Unit :=
  if isEchoRequest nb.bytes then
    withNetbuf () fun reply => do
      let reply ← netbufReserve reply netbufHeadroom
      let reply ← netbufPut reply nb.bytes
      let reply ← netbufStore reply 0 [0, 0, 0, 0]
      let reply ← netbufStore reply 2 (le16 (netChecksum reply.bytes 0))
      let _ ← ipv4Send send dev reply src ipProtoIcmp
      pure ()
  else pure ()

/-- `udp_receive`. The callback does not use the stack. -/
def udpDeliver (nb : Netbuf) (src : Ipv4Addr) : Prog Stack Unit :=
  modify fun s =>
    match udpReceive s.binds nb.bytes with
    | none => s
    | some (cb, d) => { s with delivered := (cb, src, d) :: s.delivered }

/-- The branch of `tcp_receive` for `TCP_STATE_SYN_SENT`. The state changes after the ACK was
sent. -/
def tcpSynAck (h : TcpHeader) : Prog Stack Unit := do
  let s ← get
  if h.flags &&& (tcpFlagSyn ||| tcpFlagAck) = tcpFlagSyn ||| tcpFlagAck ∧
      h.ackSeq = s.tcp.conn.sndNext then do
    setConn fun c => { c with rcvNext := h.seq + 1 }
    let _ ← tcpSendFlags send tcpFlagAck
    setConn fun c => { c with state := .established }
  else pure ()

/-- The part of `tcp_receive` that stores payload and sends the ACK. -/
def tcpStore (h : TcpHeader) (payload : List UInt8) : Prog Stack Unit := do
  let s ← get
  if payload ≠ [] ∧ h.seq = s.tcp.conn.rcvNext then do
    setConn fun c => (c.store h.seq payload).1
    let _ ← tcpSendFlags send tcpFlagAck
    pure ()
  else pure ()

/-- The part of `tcp_receive` for a FIN. The state changes after the FIN was answered. -/
def tcpFin (h : TcpHeader) : Prog Stack Unit :=
  if h.flags &&& tcpFlagFin ≠ 0 then do
    setConn fun c => { c with rcvNext := c.rcvNext + 1, peerFin := true }
    let _ ← tcpSendFlags send (tcpFlagAck ||| tcpFlagFin)
    setConn fun c => { c with sndNext := c.sndNext + 1, state := .timeWait }
  else pure ()

/-- `tcp_receive` -/
def tcpInput (nb : Netbuf) : Prog Stack Unit := do
  let s ← get
  if ¬ s.tcp.active then pure ()
  else
    match parseTcp nb.bytes with
    | none => pure ()
    | some h =>
      if h.dstPort ≠ s.tcp.conn.localPort ∨ h.srcPort ≠ s.tcp.conn.remotePort then pure ()
      else if h.flags &&& tcpFlagRst ≠ 0 then setConn fun c => { c with state := .closed }
      else if s.tcp.conn.state = .synSent then tcpSynAck send h
      else if s.tcp.conn.state = .established ∨ s.tcp.conn.state = .finWait then do
        tcpStore send h (nb.bytes.drop (h.dataOff.toNat / 16 * 4))
        tcpFin send h
      else pure ()

/-- `ipv4_receive` -/
def ipv4Receive (dev : Device) (nb : Netbuf) : Prog Stack Unit :=
  match parseIpv4 dev.ip nb.bytes with
  | none => pure ()
  | some info => do
    let nb ← netbufPull nb info.ihl
    let nb ← netbufTrim nb info.payloadLen
    if info.protocol = ipProtoIcmp then icmpReceive send dev nb info.src
    else if info.protocol = ipProtoUdp then udpDeliver nb info.src
    else if info.protocol = ipProtoTcp then tcpInput send nb
    else pure ()

/-- `ethernet_receive` -/
def ethernetReceive (dev : Device) (nb : Netbuf) : Prog Stack Unit :=
  match parseEthernet dev.mac nb.bytes with
  | none => pure ()
  | some ethertype => do
    let nb ← netbufPull nb 14
    if ethertype = ethertypeArp then arpReceive send dev nb
    else if ethertype = ethertypeIpv4 then ipv4Receive send dev nb
    else pure ()

end Paths

/-! ## Drivers -/

/-- The `send` of a driver that copies the frame and returns. -/
def nicSend : Prog Stack ℤ := fun s =>
  some (s.nicReturns 0, { s with nicReturns := fun k => s.nicReturns (k + 1) })

/-- `lo_send`, with the receive path it calls. -/
def loSend (receive : Netbuf → Prog Stack Unit) (nb : Netbuf) : Prog Stack ℤ :=
  if nb.bytes = [] then pure (-1)
  else
    withNetbuf (-1) fun rx => do
      let rx ← netbufPut rx nb.bytes
      receive rx
      pure 0

/-- The `send` of a device. -/
def sendVia (receive : Netbuf → Prog Stack Unit) (dev : Device) (nb : Netbuf) : Prog Stack ℤ :=
  match dev.driver with
  | none => pure (-1)
  | some .nic => nicSend
  | some .loopback => loSend receive nb

/-- The `send` of a device, where frames can loop back `depth` times in one another; `none` where
they do so once more. -/
def driverSend : ℕ → Device → Netbuf → Prog Stack ℤ
  | 0, dev, nb => sendVia (fun _ _ => none) dev nb
  | depth + 1, dev, nb => sendVia (ethernetReceive (driverSend depth) dev) dev nb

/-! ## Initialisation -/

/-- `NETBUF_POOL_SIZE` -/
def netbufPoolSize : ℕ := 64

/-- `ARP_CACHE_SIZE` -/
def arpCacheSize : ℕ := 32

/-- The device of `loopback_init`. -/
def loDevice : Device :=
  ⟨MacAddr.zero, ⟨127, 0, 0, 1⟩, ⟨255, 0, 0, 0⟩, Ipv4Addr.zero, some .loopback⟩

/-- The state after `net_init` when there is no other device. -/
def netInit : Stack where
  free := List.range netbufPoolSize
  freedTwice := false
  spans := []
  arpCache := arpCacheUpdate (List.replicate arpCacheSize ⟨Ipv4Addr.zero, MacAddr.zero, .free⟩)
    loDevice.ip loDevice.mac
  ipId := 0
  binds := fun _ => ⟨0, .socketUdpDispatch, false⟩
  delivered := []
  tcp := ⟨⟨0, 0, 0, 0, .closed, false, fun _ => 0, 0⟩, false⟩
  tcpDev := loDevice
  tcpRemote := Ipv4Addr.zero
  nicReturns := fun _ => 0

/-! ## Calls -/

/-- The entry points of the stack. -/
inductive NetCall where
  | udpSend (dev : Device) (dstIp : Ipv4Addr) (srcPort dstPort : UInt16) (data : Option Bytes)
      (dataLen : UInt16)
  | icmpSendEchoRequest (dev : Device) (dst : Ipv4Addr) (id seq : UInt16) (data : Option Bytes)
      (dataLen : UInt16)
  | tcpSendSegment (seq ack : UInt32) (flags : UInt8) (data : Option Bytes) (dataLen : UInt16)
  | tcpWrite (data : Option Bytes) (dataLen : UInt16)
  | arpSendRequest (dev : Device) (targetIp : Ipv4Addr)
  | ethernetReceive (dev : Device) (nb : Netbuf)

/-- A call, without what it returns. -/
def NetCall.run (depth : ℕ) : NetCall → Prog Stack Unit
  | .udpSend dev dstIp srcPort dstPort data dataLen => do
    let _ ← Net.udpSend (driverSend depth) dev dstIp srcPort dstPort data dataLen
  | .icmpSendEchoRequest dev dst id seq data dataLen => do
    let _ ← Net.icmpSendEchoRequest (driverSend depth) dev dst id seq data dataLen
  | .tcpSendSegment seq ack flags data dataLen => do
    let _ ← Net.tcpSendSegment (driverSend depth) seq ack flags (payloadOf data dataLen)
  | .tcpWrite data dataLen => do
    let _ ← tcpWriteBytes (driverSend depth) (payloadOf data dataLen)
  | .arpSendRequest dev targetIp => do
    let _ ← Net.arpSendRequest (driverSend depth) dev targetIp
  | .ethernetReceive dev nb => Net.ethernetReceive (driverSend depth) dev nb

end Tomahawk.Net
