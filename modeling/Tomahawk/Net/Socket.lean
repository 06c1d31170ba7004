import Tomahawk.Net.Udp

/-!
# The socket layer

`socket.c` keeps thirty-two sockets, each with a ring of sixteen received
datagrams, and a side table from local ports to sockets. Every port is bound in
the UDP layer to the same callback, `socketUdpDispatch`, which is not told the
port and delivers to the first active entry of the side table.
-/

namespace Tomahawk.Net

open Function Tomahawk.Lib

/-- `SOCKET_MAX`, also the size of the port map. -/
abbrev socketMax : ℕ := 32

/-- `SOCKET_RX_RING_SIZE`. -/
abbrev socketRxRingSize : ℕ := 16

/-- `SOCKET_RX_BUF_SIZE`. -/
def socketRxBufSize : ℕ := 1500

/-- `AF_INET`. -/
def afInet : UInt16 := 2

/-- `SOCK_DGRAM` and `SOCK_STREAM`. -/
def sockDgram : ℤ := 2
@[inherit_doc sockDgram] def sockStream : ℤ := 1

/-- `IPPROTO_UDP` and `IPPROTO_TCP`. -/
def ipprotoUdp : ℤ := 17
@[inherit_doc ipprotoUdp] def ipprotoTcp : ℤ := 6

/-- The results of the socket calls, `SOCK_ERR_*`. -/
def sockErrOk : ℤ := 0
@[inherit_doc sockErrOk] def sockErrInval : ℤ := -1
@[inherit_doc sockErrOk] def sockErrNomem : ℤ := -2
@[inherit_doc sockErrOk] def sockErrAddrinuse : ℤ := -3
@[inherit_doc sockErrOk] def sockErrNotbound : ℤ := -4
@[inherit_doc sockErrOk] def sockErrAgain : ℤ := -5
@[inherit_doc sockErrOk] def sockErrBadf : ℤ := -6
@[inherit_doc sockErrOk] def sockErrNosupport : ℤ := -7

/-- `SOCK_STATE_*`. -/
inductive SockState where
  | free
  | created
  | bound
  | connected
  | listening
  | closed
  deriving DecidableEq

/-- The numeric codes, which the source compares with `<` and `>=`. -/
def SockState.code : SockState → ℕ
  | free => 0
  | created => 1
  | bound => 2
  | connected => 3
  | listening => 4
  | closed => 5

/-- `s->state >= SOCK_STATE_BOUND`. -/
def SockState.atLeastBound (s : SockState) : Bool := SockState.bound.code ≤ s.code

/-- `sockaddr_in_t`, without its padding. The port is in network order. -/
structure SockaddrIn where
  sinFamily : UInt16
  sinPort : UInt16
  sinAddr : Ipv4Addr
  deriving DecidableEq

/-- `sockaddr_in_make`, from a port in host order. -/
def sockaddrInMake (ip : Ipv4Addr) (port : UInt16) : SockaddrIn := ⟨afInet, htons port, ip⟩

/-- `socket_rx_entry_t`. The bytes of the buffer past `data_len` are never read,
so the entry holds the first `data_len` bytes only. -/
structure RxEntry where
  data : List UInt8
  sender : SockaddrIn
  valid : Bool
  deriving DecidableEq

/-- `socket_rx_ring_t`. -/
structure RxRing where
  entries : Fin socketRxRingSize → RxEntry
  head : Fin socketRxRingSize
  tail : Fin socketRxRingSize
  count : ℕ
  deriving DecidableEq

/-- `rx_ring_init`: empty the ring and invalidate its entries. -/
def rxRingInit (ring : RxRing) : RxRing :=
  ⟨fun i => { ring.entries i with valid := false, data := [] }, 0, 0, 0⟩

/-- `rx_ring_push`: store at `head`, cut to the buffer size; `none` when full. -/
def rxRingPush (ring : RxRing) (data : List UInt8) (sender : SockaddrIn) : Option RxRing :=
  if socketRxRingSize ≤ ring.count then none
  else some
    { entries := update ring.entries ring.head ⟨data.take socketRxBufSize, sender, true⟩
      head := ring.head + 1
      tail := ring.tail
      count := ring.count + 1 }

/-- `rx_ring_pop`: the oldest entry, cut to the caller's buffer; `none` when empty. -/
def rxRingPop (ring : RxRing) (maxlen : ℕ) : Option (RxRing × List UInt8 × SockaddrIn) :=
  if ring.count = 0 then none
  else
    let e := ring.entries ring.tail
    some ({ ring with
        entries := update ring.entries ring.tail { e with valid := false }
        tail := ring.tail + 1
        count := ring.count - 1 }, e.data.take maxlen, e.sender)

/-- The part of a network device that the socket layer reads. -/
structure NetDevice where
  ip : Ipv4Addr
  deriving DecidableEq

/-- `socket_t`. -/
structure Socket where
  fd : ℤ
  domain : ℤ
  type : ℤ
  protocol : ℤ
  state : SockState
  local' : SockaddrIn
  remote : SockaddrIn
  rxRing : RxRing
  nonBlocking : Bool
  broadcast : Bool
  reuseAddr : Bool
  dev : Option NetDevice

/-- `port_map_entry_t`. The socket is named by its index in the socket table. -/
structure PortMapEntry where
  port : UInt16
  sock : Option (Fin socketMax)
  active : Bool
  deriving DecidableEq

/-- The port map of `socket.c`. -/
abbrev PortMap := Fin socketMax → PortMapEntry

/-- The tables of `udp.c` and `socket.c`. -/
structure NetState where
  bindTable : BindTable
  portMap : PortMap
  sockets : Fin socketMax → Socket

/-- Replace one socket. -/
def NetState.setSocket (s : NetState) (i : Fin socketMax) (x : Socket) : NetState :=
  { s with sockets := update s.sockets i x }

/-- The test of the scans in `port_map_remove` and `port_map_find`. -/
def portMatches (m : PortMap) (port : UInt16) (i : Fin socketMax) : Bool :=
  (m i).active && (m i).port == port

/-- `port_map_add`: take the first inactive slot. -/
def portMapAdd (m : PortMap) (port : UInt16) (i : Fin socketMax) : Option PortMap :=
  match firstFin (fun k => !(m k).active) with
  | some k => some (update m k ⟨port, some i, true⟩)
  | none => none

/-- `port_map_remove`: deactivate the first active slot for the port. -/
def portMapRemove (m : PortMap) (port : UInt16) : PortMap :=
  updateFirst m (portMatches m port) fun e => { e with active := false }

/-- `port_map_find`. -/
def portMapFind (m : PortMap) (port : UInt16) : Option (Fin socketMax) :=
  match firstFin (portMatches m port) with
  | some k => (m k).sock
  | none => none

/-- The port-map entry that `socket_udp_dispatch` stops at: the first active one
whose socket is bound. No port takes part in the test. -/
def dispatchTest (s : NetState) (k : Fin socketMax) : Bool :=
  (s.portMap k).active &&
    match (s.portMap k).sock with
    | some i => (s.sockets i).state.atLeastBound
    | none => false

/-- `socket_udp_dispatch`: push the payload on the ring of that entry's socket.
A full ring drops the datagram. -/
def socketUdpDispatch (s : NetState) (srcIp : Ipv4Addr) (srcPort : UInt16) (data : List UInt8) :
    NetState :=
  match firstFin (dispatchTest s) with
  | none => s
  | some k =>
    match (s.portMap k).sock with
    | none => s
    | some i =>
      match rxRingPush (s.sockets i).rxRing data (sockaddrInMake srcIp srcPort) with
      | some ring => s.setSocket i { s.sockets i with rxRing := ring }
      | none => s

/-- An incoming packet: `udp_receive` followed by the callback it selects. The
callbacks of other users do not touch the socket tables. -/
def udpInput (s : NetState) (nb : List UInt8) (src : Ipv4Addr) : NetState :=
  match udpReceive s.bindTable nb with
  | some (.socketUdpDispatch, d) => socketUdpDispatch s src d.srcPort d.payload
  | _ => s

/-- The slot of a descriptor that is in range. -/
def socketIndex (fd : ℤ) : Option (Fin socketMax) :=
  if h : 0 ≤ fd ∧ fd < socketMax then some ⟨fd.toNat, by omega⟩ else none

/-- `socket_get`: the slot of a descriptor in range that is not free. -/
def socketGet (s : NetState) (fd : ℤ) : Option (Fin socketMax) :=
  match socketIndex fd with
  | some i => if (s.sockets i).state = .free then none else some i
  | none => none

/-- `sock_create`. -/
def sockCreate (s : NetState) (domain type protocol : ℤ) : NetState × ℤ :=
  if domain ≠ afInet.toNat then (s, sockErrNosupport)
  else
    let protocol := if protocol = 0 then
        (if type = sockStream then ipprotoTcp
          else if type = sockDgram then ipprotoUdp else protocol)
      else protocol
    if type ≠ sockDgram ∨ protocol ≠ ipprotoUdp then (s, sockErrNosupport)
    else
      match firstFin (fun i => decide ((s.sockets i).state = .free)) with
      | none => (s, sockErrNomem)
      | some i =>
        (s.setSocket i
          { fd := i, domain := domain, type := type, protocol := protocol, state := .created
            local' := sockaddrInMake .zero 0, remote := sockaddrInMake .zero 0
            rxRing := rxRingInit (s.sockets i).rxRing
            nonBlocking := false, broadcast := false, reuseAddr := false, dev := none }, i)

/-- `sock_bind`. A null address is `none`. -/
def sockBind (s : NetState) (fd : ℤ) (addr : Option SockaddrIn) : NetState × ℤ :=
  match socketGet s fd with
  | none => (s, sockErrBadf)
  | some i =>
    if (s.sockets i).state ≠ .created then (s, sockErrInval)
    else
      match addr with
      | none => (s, sockErrInval)
      | some addr =>
        if addr.sinFamily ≠ afInet then (s, sockErrInval)
        else
          let port := ntohs addr.sinPort
          if portMapFind s.portMap port ≠ none then (s, sockErrAddrinuse)
          else
            match udpBind s.bindTable port .socketUdpDispatch with
            | none => (s, sockErrAddrinuse)
            | some t =>
              match portMapAdd s.portMap port i with
              | none => ({ s with bindTable := udpUnbind t port }, sockErrNomem)
              | some m =>
                (NetState.setSocket { s with bindTable := t, portMap := m } i
                  { s.sockets i with local' := addr, state := .bound }, sockErrOk)

/-- `sock_sendto`. The default device and the result of `udp_send` come from the
layers below; a packet that loops back arrives as an input of its own. -/
def sockSendto (s : NetState) (fd : ℤ) (buf : Option (List UInt8)) (dest : Option SockaddrIn)
    (defaultDev : Option NetDevice) (udpSendResult : ℤ) : NetState × ℤ :=
  match socketGet s fd with
  | none => (s, sockErrBadf)
  | some i =>
    match buf with
    | none => (s, sockErrInval)
    | some buf =>
      if buf.length = 0 then (s, sockErrInval)
      else
        match dest with
        | none => (s, sockErrInval)
        | some dest =>
          if dest.sinFamily ≠ afInet then (s, sockErrInval)
          else
            match (s.sockets i).dev.or defaultDev with
            | none => (s, sockErrInval)
            | some dev =>
              -- An unbound socket gets an ephemeral port that is never
              -- registered with the UDP layer or in the port map.
              let s' := if (s.sockets i).state = .created then
                  s.setSocket i { s.sockets i with
                    local' := sockaddrInMake dev.ip (UInt16.ofNat (49152 + (s.sockets i).fd).toNat)
                    state := .bound }
                else s
              (s', if udpSendResult = 0 then buf.length else udpSendResult)

/-- One turn of the loop of `sock_recvfrom`. Blocking is repeating the call. -/
def sockRecvfrom (s : NetState) (fd : ℤ) (maxlen : ℕ) : NetState × ℤ × List UInt8 :=
  match socketGet s fd with
  | none => (s, sockErrBadf, [])
  | some i =>
    if maxlen = 0 then (s, sockErrInval, [])
    else if !(s.sockets i).state.atLeastBound then (s, sockErrNotbound, [])
    else
      match rxRingPop (s.sockets i).rxRing maxlen with
      | some (ring, data, _) =>
        (s.setSocket i { s.sockets i with rxRing := ring }, data.length, data)
      | none =>
        if (s.sockets i).state = .closed then (s, sockErrBadf, []) else (s, sockErrAgain, [])

/-- `sock_connect`. -/
def sockConnect (s : NetState) (fd : ℤ) (addr : Option SockaddrIn) : NetState × ℤ :=
  match socketGet s fd with
  | none => (s, sockErrBadf)
  | some i =>
    match addr with
    | none => (s, sockErrInval)
    | some addr =>
      if addr.sinFamily ≠ afInet then (s, sockErrInval)
      else
        let state := (s.sockets i).state
        (s.setSocket i { s.sockets i with
          remote := addr
          state := if state = .created ∨ state = .bound then .connected else state }, sockErrOk)

/-- `sock_close`: a socket that is at least bound gives up its local port in both
tables, whether or not the entries there are its own. -/
def sockClose (s : NetState) (fd : ℤ) : NetState × ℤ :=
  match socketGet s fd with
  | none => (s, sockErrBadf)
  | some i =>
    let x := s.sockets i
    let s' := if x.state.atLeastBound ∧ x.protocol = ipprotoUdp then
        let port := ntohs x.local'.sinPort
        { s with
          bindTable := udpUnbind s.bindTable port
          portMap := portMapRemove s.portMap port }
      else s
    (s'.setSocket i { x with rxRing := rxRingInit x.rxRing, state := .free }, sockErrOk)

/-- No two active entries share a port. -/
def PortMap.PortsUnique (m : PortMap) : Prop :=
  ∀ k l, (m k).active = true → (m l).active = true → (m k).port = (m l).port → k = l

variable {m : PortMap} {port : UInt16} {k : Fin socketMax}

section

variable (hu : m.PortsUnique)
include hu

/-- An entry for a new port keeps the ports distinct. -/
theorem PortMap.PortsUnique.add (hnew : ∀ l, (m l).active = true → (m l).port ≠ port)
    (k : Fin socketMax) (sock : Option (Fin socketMax)) :
    PortMap.PortsUnique (update m k ⟨port, sock, true⟩) :=
  UniqueKeys.update PortMapEntry.active PortMapEntry.port hu k fun _ l _ => hnew l

/-- With distinct ports, removal deactivates exactly the entries of its port. -/
theorem portMapRemove_apply (port : UInt16) (k : Fin socketMax) :
    portMapRemove m port k =
      if (m k).active = true ∧ (m k).port = port then { m k with active := false } else m k := by
  unfold portMapRemove
  rw [updateFirst_apply]
  · simp only [portMatches, Bool.and_eq_true, beq_iff_eq]
  · intro j k hj hk
    simp only [portMatches, Bool.and_eq_true, beq_iff_eq] at hj hk
    exact hu j k hj.1 hk.1 (hj.2.trans hk.2.symm)

/-- What remains mapped after a removal was mapped for another port. -/
theorem portMapRemove_active :
    (portMapRemove m port k).active = true ↔ (m k).active = true ∧ (m k).port ≠ port := by
  rw [portMapRemove_apply hu]
  split_ifs with h
  · simp [h.2]
  · simpa using h

/-- The entries of other ports are untouched by a removal. -/
theorem portMapRemove_of_ne (hk : (m k).port ≠ port) : portMapRemove m port k = m k := by
  rw [portMapRemove_apply hu, if_neg fun h => hk h.2]

end

end Tomahawk.Net
