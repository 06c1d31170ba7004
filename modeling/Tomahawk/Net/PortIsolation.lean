import Tomahawk.Net.Socket
import Tomahawk.Lib.Run

/-!
# Which socket a datagram reaches

A world pairs the socket tables with a history variable: the port that each
open socket bound with `sockBind`. The shared dispatcher is not told the port of
a datagram, so delivery is right only while at most one socket is bound and no
close takes down a port it does not own. These two conditions on the calls are
`SockOp.Meets`; under them every reachable world delivers each datagram to the
socket bound to its port and to no other.
-/

namespace Tomahawk.Net

open Function Tomahawk.Lib

/-- The calls and inputs of the socket layer. -/
inductive SockOp where
  | create (domain type protocol : ℤ)
  | bind (fd : ℤ) (addr : Option SockaddrIn)
  | sendto (fd : ℤ) (buf : Option (List UInt8)) (dest : Option SockaddrIn)
      (defaultDev : Option NetDevice) (udpSendResult : ℤ)
  | recvfrom (fd : ℤ) (maxlen : ℕ)
  | connect (fd : ℤ) (addr : Option SockaddrIn)
  | close (fd : ℤ)
  | input (nb : List UInt8) (src : Ipv4Addr)

/-- The socket tables with the port each open socket has bound by `sockBind`. -/
structure World where
  net : NetState
  boundPort : Fin socketMax → Option UInt16

/-- The history variable after a bind: the port of a call that returned success. -/
def recordBind (w : World) (fd : ℤ) (addr : Option SockaddrIn) (ret : ℤ) :
    Fin socketMax → Option UInt16 :=
  match socketIndex fd, addr with
  | some i, some addr =>
    if ret = sockErrOk then update w.boundPort i (some (ntohs addr.sinPort))
    else w.boundPort
  | _, _ => w.boundPort

/-- The history variable after a close that returned success. -/
def recordClose (w : World) (fd : ℤ) (ret : ℤ) : Fin socketMax → Option UInt16 :=
  match socketIndex fd with
  | some i => if ret = sockErrOk then update w.boundPort i none else w.boundPort
  | none => w.boundPort

/-- One call or input. -/
def World.step (w : World) : SockOp → World
  | .create domain type protocol => { w with net := (sockCreate w.net domain type protocol).1 }
  | .bind fd addr =>
    let r := sockBind w.net fd addr
    ⟨r.1, recordBind w fd addr r.2⟩
  | .sendto fd buf dest dev ret => { w with net := (sockSendto w.net fd buf dest dev ret).1 }
  | .recvfrom fd maxlen => { w with net := (sockRecvfrom w.net fd maxlen).1 }
  | .connect fd addr => { w with net := (sockConnect w.net fd addr).1 }
  | .close fd =>
    let r := sockClose w.net fd
    ⟨r.1, recordClose w fd r.2⟩
  | .input nb src => { w with net := udpInput w.net nb src }

/-- The state after `socket_init`: every slot free and no port mapped. Other
users of the UDP layer may hold ports, each once. -/
structure World.Initial (w : World) : Prop where
  free : ∀ i, (w.net.sockets i).state = .free
  unmapped : ∀ k, (w.net.portMap k).active = false
  ports : w.net.bindTable.PortsUnique
  others : ∀ j, (w.net.bindTable j).active = true → (w.net.bindTable j).cb ≠ .socketUdpDispatch
  unbound : ∀ i, w.boundPort i = none

/-- A packet for port `p` changes no ring but that of a socket bound to `p`. -/
def World.DeliversOnlyToOwner (w : World) : Prop :=
  ∀ nb src d i, parseUdp nb = some d →
    ((udpInput w.net nb src).sockets i).rxRing ≠ (w.net.sockets i).rxRing →
      w.boundPort i = some d.dstPort

/-- A packet for port `p` is enqueued on the ring of a socket bound to `p` that has room. -/
def World.DeliversToOwner (w : World) : Prop :=
  ∀ nb src d i ring, parseUdp nb = some d → w.boundPort i = some d.dstPort →
    rxRingPush (w.net.sockets i).rxRing d.payload (sockaddrInMake src d.srcPort) = some ring →
      ((udpInput w.net nb src).sockets i).rxRing = ring

/-- Whether `sock_bind` passes its checks and the UDP layer takes the port. -/
def canBind (s : NetState) (fd : ℤ) (addr : Option SockaddrIn) : Prop :=
  ∃ i addr', socketGet s fd = some i ∧ (s.sockets i).state = .created ∧ addr = some addr' ∧
    addr'.sinFamily = afInet ∧ portMapFind s.portMap (ntohs addr'.sinPort) = none ∧
    (udpBind s.bindTable (ntohs addr'.sinPort) .socketUdpDispatch).isSome = true

/-- The condition on a call: a bind that can succeed finds no other socket bound, and
a close of a socket that never bound a port finds no socket bound to its local port. -/
def World.Meets (w : World) : SockOp → Prop
  | .bind fd addr => canBind w.net fd addr → ∀ k, (w.net.portMap k).active = false
  | .close fd => ∀ i, socketGet w.net fd = some i → w.boundPort i = none →
      (w.net.sockets i).state.atLeastBound = true →
        ∀ k, (w.net.portMap k).active = true →
          (w.net.portMap k).port ≠ ntohs (w.net.sockets i).local'.sinPort
  | _ => True

/-- What the tables and the sockets have to do with the history variable, for whichever callbacks
the ports are bound. -/
structure World.Bound (w : World) : Prop where
  /-- No two active entries of the port map share a port. -/
  unique : w.net.portMap.PortsUnique
  /-- A mapped port belongs to the socket that bound it. -/
  mapped : ∀ k, (w.net.portMap k).active = true →
    ∃ i, (w.net.portMap k).sock = some i ∧ w.boundPort i = some (w.net.portMap k).port
  /-- A bound socket has its port mapped. -/
  held : ∀ i p, w.boundPort i = some p →
    ∃ k, (w.net.portMap k).active = true ∧ (w.net.portMap k).port = p ∧
      (w.net.portMap k).sock = some i
  /-- No port is bound twice in the UDP layer. -/
  binds : w.net.bindTable.PortsUnique
  /-- A bound socket is in a state that receives, and its local address has the port. -/
  local_ : ∀ i p, w.boundPort i = some p →
    (w.net.sockets i).state.atLeastBound = true ∧ ntohs (w.net.sockets i).local'.sinPort = p
  /-- Every open socket is a UDP socket. -/
  udp : ∀ i, (w.net.sockets i).state ≠ .free → (w.net.sockets i).protocol = ipprotoUdp

/-- The dispatcher serves the one port that is mapped. -/
structure World.Inv (w : World) : Prop extends w.Bound where
  /-- At most one port is mapped. -/
  single : ∀ k l, (w.net.portMap k).active = true → (w.net.portMap l).active = true → k = l
  /-- A mapped port is bound in the UDP layer to the dispatcher. -/
  registered : ∀ k, (w.net.portMap k).active = true →
    ∃ j, (w.net.bindTable j).active = true ∧ (w.net.bindTable j).port = (w.net.portMap k).port ∧
      (w.net.bindTable j).cb = .socketUdpDispatch
  /-- The dispatcher is bound for mapped ports only. -/
  dispatched : ∀ j, (w.net.bindTable j).active = true →
    (w.net.bindTable j).cb = .socketUdpDispatch →
      ∃ k, (w.net.portMap k).active = true ∧ (w.net.portMap k).port = (w.net.bindTable j).port

/-- What a call that binds and closes nothing leaves as it was. -/
structure NetState.KeepsBindings (s s' : NetState) : Prop where
  bindTable : s'.bindTable = s.bindTable
  portMap : s'.portMap = s.portMap
  /-- A socket that receives keeps receiving, at the same local address. -/
  local_ : ∀ i, (s.sockets i).state.atLeastBound = true →
    (s'.sockets i).state.atLeastBound = true ∧ (s'.sockets i).local' = (s.sockets i).local'
  /-- An open socket is new and speaks UDP, or was open with the same protocol. -/
  udp : ∀ i, (s'.sockets i).state ≠ .free → (s'.sockets i).protocol = ipprotoUdp ∨
    (s.sockets i).state ≠ .free ∧ (s'.sockets i).protocol = (s.sockets i).protocol

theorem NetState.KeepsBindings.refl (s : NetState) : s.KeepsBindings s :=
  ⟨rfl, rfl, fun _ h => ⟨h, rfl⟩, fun _ h => .inr ⟨h, rfl⟩⟩

variable {s s' : NetState} {i : Fin socketMax} {x : Socket} {fd : ℤ} {w : World}

/-- Replacing one socket keeps the bindings when the new value respects the old one. -/
theorem NetState.KeepsBindings.setSocket (hlocal : (s.sockets i).state.atLeastBound = true →
      x.state.atLeastBound = true ∧ x.local' = (s.sockets i).local')
    (hudp : x.state ≠ .free → x.protocol = ipprotoUdp ∨
      (s.sockets i).state ≠ .free ∧ x.protocol = (s.sockets i).protocol) :
    s.KeepsBindings (s.setSocket i x) := by
  refine ⟨rfl, rfl, fun j hj => ?_, fun j hj => ?_⟩
  · by_cases hji : j = i
    · subst hji
      simpa [NetState.setSocket] using hlocal hj
    · simpa [NetState.setSocket, hji] using hj
  · by_cases hji : j = i
    · subst hji
      simp only [NetState.setSocket, update_self] at hj ⊢
      exact hudp hj
    · simp only [NetState.setSocket, update_of_ne hji] at hj ⊢
      exact .inr ⟨hj, trivial⟩

/-- A descriptor that `socket_get` accepts names an open socket. -/
theorem socketGet_eq_some (h : socketGet s fd = some i) :
    socketIndex fd = some i ∧ (s.sockets i).state ≠ .free := by
  unfold socketGet at h
  cases hidx : socketIndex fd with
  | none => simp [hidx] at h
  | some j =>
    by_cases hfree : (s.sockets j).state = .free
    · simp [hidx, hfree] at h
    · simp only [hidx, hfree, if_false, Option.some.injEq] at h
      exact ⟨by rw [h], h ▸ hfree⟩

section

variable (s : NetState)

theorem sockCreate_keepsBindings (domain type protocol : ℤ) :
    s.KeepsBindings (sockCreate s domain type protocol).1 := by
  unfold sockCreate
  by_cases hdom : domain ≠ afInet.toNat
  · simpa [hdom] using NetState.KeepsBindings.refl s
  dsimp only
  split_ifs with hkind hproto htype
  all_goals try exact NetState.KeepsBindings.refl s
  all_goals
    split
    · exact NetState.KeepsBindings.refl s
    · rename_i i hfind
      have hfree := firstFin_spec hfind
      simp only [decide_eq_true_eq] at hfree
      refine NetState.KeepsBindings.setSocket (fun h => ?_) (fun _ => .inl ?_)
      · simp [hfree, SockState.atLeastBound, SockState.code] at h
      · simp_all

theorem sockSendto_keepsBindings (fd : ℤ) (buf : Option (List UInt8)) (dest : Option SockaddrIn)
    (dev : Option NetDevice) (ret : ℤ) : s.KeepsBindings (sockSendto s fd buf dest dev ret).1 := by
  fun_cases sockSendto s fd buf dest dev ret
  case case7 i hget _ _ _ _ _ _ s' =>
    obtain ⟨_, hopen⟩ := socketGet_eq_some hget
    dsimp only [s']
    split_ifs with hcreated
    · refine NetState.KeepsBindings.setSocket (fun h => ?_) (fun _ => .inr ⟨hopen, rfl⟩)
      simp [hcreated, SockState.atLeastBound, SockState.code] at h
    · exact NetState.KeepsBindings.refl s
  all_goals exact NetState.KeepsBindings.refl s

theorem sockRecvfrom_keepsBindings (fd : ℤ) (maxlen : ℕ) :
    s.KeepsBindings (sockRecvfrom s fd maxlen).1 := by
  fun_cases sockRecvfrom s fd maxlen
  case case4 i hget _ _ ring data _ _ =>
    obtain ⟨_, hopen⟩ := socketGet_eq_some hget
    exact NetState.KeepsBindings.setSocket (fun h => ⟨h, rfl⟩) (fun _ => .inr ⟨hopen, rfl⟩)
  all_goals exact NetState.KeepsBindings.refl s

theorem sockConnect_keepsBindings (fd : ℤ) (addr : Option SockaddrIn) :
    s.KeepsBindings (sockConnect s fd addr).1 := by
  fun_cases sockConnect s fd addr
  case case4 i hget addr' _ state =>
    obtain ⟨_, hopen⟩ := socketGet_eq_some hget
    refine NetState.KeepsBindings.setSocket (fun h => ⟨?_, rfl⟩) (fun _ => .inr ⟨hopen, rfl⟩)
    split
    · rfl
    · exact h
  all_goals exact NetState.KeepsBindings.refl s

/-- The dispatcher changes at most the ring of one socket. -/
theorem socketUdpDispatch_cases (src : Ipv4Addr) (port : UInt16) (data : List UInt8) :
    socketUdpDispatch s src port data = s ∨
      ∃ k i ring, (s.portMap k).active = true ∧ (s.portMap k).sock = some i ∧
        (s.sockets i).state.atLeastBound = true ∧
        rxRingPush (s.sockets i).rxRing data (sockaddrInMake src port) = some ring ∧
        socketUdpDispatch s src port data =
          s.setSocket i { s.sockets i with rxRing := ring } := by
  fun_cases socketUdpDispatch s src port data
  case case3 k hfind i hsock ring hpush =>
    have htest := firstFin_spec hfind
    simp only [dispatchTest, hsock, Bool.and_eq_true] at htest
    exact .inr ⟨k, i, ring, htest.1, hsock, htest.2, hpush, rfl⟩
  all_goals exact .inl rfl

theorem udpInput_keepsBindings (nb : List UInt8) (src : Ipv4Addr) :
    s.KeepsBindings (udpInput s nb src) := by
  fun_cases udpInput s nb src
  case case1 d _ =>
    rcases socketUdpDispatch_cases s src d.srcPort d.payload with
      h | ⟨_, i, ring, _, _, hbound, _, h⟩
    · rw [h]
      exact NetState.KeepsBindings.refl s
    · rw [h]
      refine NetState.KeepsBindings.setSocket (fun h => ⟨h, rfl⟩) (fun hne => .inr ⟨hne, rfl⟩)
  case case2 => exact NetState.KeepsBindings.refl s

end

/-- A call that keeps the bindings. -/
theorem World.Bound.of_keepsBindings (hw : w.Bound) (h : w.net.KeepsBindings s') :
    World.Bound { w with net := s' } where
  unique := by simpa only [h.portMap] using hw.unique
  mapped := by simpa only [h.portMap] using hw.mapped
  held := by simpa only [h.portMap] using hw.held
  binds := by simpa only [h.bindTable] using hw.binds
  local_ i p hp := by
    obtain ⟨hbound, hport⟩ := hw.local_ i p hp
    obtain ⟨hbound', hlocal⟩ := h.local_ i hbound
    exact ⟨hbound', by rw [hlocal, hport]⟩
  udp i hi := by
    rcases h.udp i hi with hudp | ⟨hopen, hsame⟩
    · exact hudp
    · rw [hsame, hw.udp i hopen]

/-- A socket that is not at least bound holds no port. -/
theorem World.Bound.boundPort_eq_none (hw : w.Bound)
    (hi : (w.net.sockets i).state.atLeastBound ≠ true) : w.boundPort i = none := by
  by_contra hne
  obtain ⟨p, hp⟩ := Option.ne_none_iff_exists'.mp hne
  exact hi (hw.local_ i p hp).1

/-- Two sockets are not bound to one port. -/
theorem World.Bound.boundPort_inj (hw : w.Bound) {i' : Fin socketMax} {p : UInt16}
    (hi : w.boundPort i = some p) (hi' : w.boundPort i' = some p) : i = i' := by
  obtain ⟨k, hk, hkp, hks⟩ := hw.held i p hi
  obtain ⟨k', hk', hkp', hks'⟩ := hw.held i' p hi'
  obtain rfl := hw.unique k k' hk hk' (hkp.trans hkp'.symm)
  exact Option.some.inj (hks.symm.trans hks')

theorem World.Inv.of_keepsBindings (hw : w.Inv) (h : w.net.KeepsBindings s') :
    World.Inv { w with net := s' } where
  toBound := hw.toBound.of_keepsBindings h
  single := by simpa only [h.portMap] using hw.single
  registered := by simpa only [h.portMap, h.bindTable] using hw.registered
  dispatched := by simpa only [h.portMap, h.bindTable] using hw.dispatched

/-- The world after a bind that filled the slot `k` of the port map. -/
def World.afterBind (w : World) (i k : Fin socketMax) (addr : SockaddrIn) (t : BindTable) :
    World where
  net := NetState.setSocket { w.net with
      bindTable := t
      portMap := update w.net.portMap k ⟨ntohs addr.sinPort, some i, true⟩ } i
    { w.net.sockets i with local' := addr, state := .bound }
  boundPort := update w.boundPort i (some (ntohs addr.sinPort))

/-- What a bind does to the world: nothing, or it fills a slot of each table. -/
theorem World.step_bind_cases (w : World) (fd : ℤ) (addr : Option SockaddrIn) :
    w.step (.bind fd addr) = w ∨
      ∃ i addr' t, canBind w.net fd addr ∧ socketIndex fd = some i ∧ addr = some addr' ∧
        (w.net.sockets i).state = .created ∧
        udpBind w.net.bindTable (ntohs addr'.sinPort) .socketUdpDispatch = some t ∧
        ((∀ k, (w.net.portMap k).active = true) ∧ w.step (.bind fd addr) =
            { w with net := { w.net with bindTable := udpUnbind t (ntohs addr'.sinPort) } } ∨
          ∃ k, (w.net.portMap k).active = false ∧
            w.step (.bind fd addr) = w.afterBind i k addr' t) := by
  have hfail : ∀ ret ≠ sockErrOk, recordBind w fd addr ret = w.boundPort := by
    intro ret hret
    unfold recordBind
    split <;> simp [hret]
  simp only [step]
  fun_cases sockBind w.net fd addr
  case case7 i hget hstate addr hfam port hfree t ht hfull =>
    simp only [ne_eq, not_not] at hstate hfam hfree
    refine .inr ⟨i, addr, t, ⟨i, addr, hget, hstate, rfl, hfam, hfree, by simp [port, ht]⟩,
      (socketGet_eq_some hget).1, rfl, hstate, ht, .inl ⟨fun k => ?_, ?_⟩⟩
    · unfold portMapAdd at hfull
      cases hslot : firstFin (fun k => !(w.net.portMap k).active) with
      | some k' => simp [hslot] at hfull
      | none => simpa using firstFin_eq_none.mp hslot k
    · rw [hfail sockErrNomem (by decide)]
  case case8 i hget hstate addr hfam port hfree t ht m hm =>
    simp only [ne_eq, not_not] at hstate hfam hfree
    have hidx := (socketGet_eq_some hget).1
    refine .inr ⟨i, addr, t, ⟨i, addr, hget, hstate, rfl, hfam, hfree, by simp [port, ht]⟩,
      hidx, rfl, hstate, ht, .inr ?_⟩
    unfold portMapAdd at hm
    cases hslot : firstFin (fun k => !(w.net.portMap k).active) with
    | none => simp [hslot] at hm
    | some k =>
      simp only [hslot, Option.some.injEq] at hm
      refine ⟨k, by simpa using firstFin_spec hslot, ?_⟩
      rw [← hm]
      simp only [recordBind, hidx, if_true, afterBind, port]
  all_goals
    refine .inl ?_
    rw [hfail]
    simp [sockErrOk, sockErrBadf, sockErrInval, sockErrAddrinuse]

/-- A bind to a port that is not mapped. -/
theorem World.Bound.bind (hw : w.Bound) {k : Fin socketMax} {addr : SockaddrIn} {t : BindTable}
    (hcreated : (w.net.sockets i).state = .created) (hk : (w.net.portMap k).active = false)
    (hnew : ∀ l, (w.net.portMap l).active = true → (w.net.portMap l).port ≠ ntohs addr.sinPort)
    (ht : udpBind w.net.bindTable (ntohs addr.sinPort) .socketUdpDispatch = some t) :
    (w.afterBind i k addr t).Bound := by
  have hnone := hw.boundPort_eq_none (i := i) (by rw [hcreated]; decide)
  -- The new entries belong to the socket, which had none; the others are as before.
  have hother : ∀ x p, w.boundPort x = some p → x ≠ i := by
    rintro x p hx rfl
    rw [hnone] at hx
    cases hx
  refine ⟨hw.unique.add hnew k (some i), fun a ha => ?_, fun x p hx => ?_, hw.binds.bind ht,
    fun x p hx => ?_, fun x hx => ?_⟩ <;>
    simp only [World.afterBind, NetState.setSocket] at *
  · by_cases hak : a = k
    · subst hak
      exact ⟨i, by simp⟩
    · rw [update_of_ne hak] at ha ⊢
      obtain ⟨x, hsock, hx⟩ := hw.mapped a ha
      exact ⟨x, hsock, by rw [update_of_ne (hother x _ hx), hx]⟩
  · by_cases hxi : x = i
    · subst hxi
      exact ⟨k, by simpa using hx⟩
    · rw [update_of_ne hxi] at hx
      obtain ⟨a, ha, hap, hasock⟩ := hw.held x p hx
      have hak : a ≠ k := by
        rintro rfl
        rw [hk] at ha
        cases ha
      exact ⟨a, by rw [update_of_ne hak]; exact ⟨ha, hap, hasock⟩⟩
  · by_cases hxi : x = i
    · subst hxi
      simpa [SockState.atLeastBound, SockState.code] using hx
    · rw [update_of_ne hxi] at hx ⊢
      exact hw.local_ x p hx
  · by_cases hxi : x = i
    · subst hxi
      simpa using hw.udp x (by rw [hcreated]; decide)
    · rw [update_of_ne hxi] at hx ⊢
      exact hw.udp x hx

/-- A bind that meets the condition keeps the invariant. -/
theorem World.Inv.bind (hw : w.Inv) {addr : Option SockaddrIn} (hmeet : w.Meets (.bind fd addr)) :
    (w.step (.bind fd addr)).Inv := by
  rcases w.step_bind_cases fd addr with
    hsame | ⟨i, addr', t, hcan, -, rfl, hcreated, ht, ⟨hfull, -⟩ | ⟨k, hk, hbind⟩⟩
  · rwa [hsame]
  · have := hmeet hcan 0
    simp [hfull 0] at this
  have hidle := hmeet hcan
  have hbound := hw.toBound.bind hcreated hk (fun l hl => by simp [hidle l] at hl) ht
  obtain ⟨hfresh, j, hj, rfl⟩ := udpBind_eq_some ht
  rw [hbind]
  -- The new entries are the only active ones that the invariant speaks about.
  have hmap : ∀ l, (update w.net.portMap k ⟨ntohs addr'.sinPort, some i, true⟩ l).active
      = true → l = k := by
    intro l hl
    by_contra hne
    simp [update_of_ne hne, hidle l] at hl
  refine ⟨hbound, fun l l' hl hl' => (hmap l hl).trans (hmap l' hl').symm, ?_, ?_⟩ <;>
    simp only [World.afterBind, NetState.setSocket]
  · intro l hl
    obtain rfl := hmap l hl
    exact ⟨j, by simp⟩
  · intro l hl hcb
    by_cases hlj : l = j
    · subst hlj
      exact ⟨k, by simp⟩
    · rw [update_of_ne hlj] at hl hcb
      obtain ⟨l', hl', -⟩ := hw.dispatched l hl hcb
      simp [hidle l'] at hl'

section

variable {port : UInt16} (hport : ∀ p, w.boundPort i = some p → p = port)
  (hother : w.boundPort i = none → ∀ k, (w.net.portMap k).active = true →
    (w.net.portMap k).port ≠ port)
include hport hother

/-- Giving up a port in both tables, and the socket bound to it if there is one. -/
theorem World.Bound.unbind (hw : w.Bound) :
    World.Bound
      { net := { w.net with
          bindTable := udpUnbind w.net.bindTable port
          portMap := portMapRemove w.net.portMap port }
        boundPort := update w.boundPort i none } := by
  -- Another socket bound to the port would share its map entry with socket `i`.
  have hne : ∀ l, l ≠ i → w.boundPort l ≠ some port := by
    intro l hli hl
    obtain ⟨k, hk, hkp, hks⟩ := hw.held l port hl
    cases hi : w.boundPort i with
    | none => exact hother hi k hk hkp
    | some p => exact hli (hw.boundPort_inj hl (hport p hi ▸ hi))
  have hleft : ∀ {l p}, update w.boundPort i none l = some p →
      l ≠ i ∧ w.boundPort l = some p := by
    intro l p hl
    by_cases hli : l = i
    · subst hli
      simp at hl
    · exact ⟨hli, by rwa [update_of_ne hli] at hl⟩
  refine ⟨UniqueKeys.sub PortMapEntry.active PortMapEntry.port hw.unique fun k hk => ?_,
    fun k hk => ?_, fun l p hl => ?_, hw.binds.unbind port,
    fun l p hl => hw.local_ l p (hleft hl).2, hw.udp⟩ <;> dsimp only at *
  · exact portMapRemove_of_ne hw.unique ((portMapRemove_active hw.unique).mp hk).2
  · obtain ⟨hk, hkp⟩ := (portMapRemove_active hw.unique).mp hk
    obtain ⟨l, hsock, hl⟩ := hw.mapped k hk
    have hli : l ≠ i := by
      rintro rfl
      exact hkp (hport _ hl)
    rw [portMapRemove_of_ne hw.unique hkp]
    exact ⟨l, hsock, by rw [update_of_ne hli, hl]⟩
  · obtain ⟨hli, hl⟩ := hleft hl
    obtain ⟨k, hk, rfl, hks⟩ := hw.held l p hl
    have hkp : (w.net.portMap k).port ≠ port := fun heq => hne l hli (heq ▸ hl)
    refine ⟨k, (portMapRemove_active hw.unique).mpr ⟨hk, hkp⟩, ?_⟩
    rw [portMapRemove_of_ne hw.unique hkp]
    exact ⟨rfl, hks⟩

theorem World.Inv.unbind (hw : w.Inv) :
    World.Inv
      { net := { w.net with
          bindTable := udpUnbind w.net.bindTable port
          portMap := portMapRemove w.net.portMap port }
        boundPort := update w.boundPort i none } := by
  have hunique := hw.unique
  refine ⟨hw.toBound.unbind hport hother, fun k l hk hl => ?_, fun k hk => ?_,
    fun j hj hcb => ?_⟩ <;> dsimp only at *
  · exact hw.single k l ((portMapRemove_active hunique).mp hk).1
      ((portMapRemove_active hunique).mp hl).1
  · obtain ⟨hk, hkp⟩ := (portMapRemove_active hunique).mp hk
    obtain ⟨j, hj, hjp, hcb⟩ := hw.registered k hk
    have hjp' : (w.net.bindTable j).port ≠ port := hjp ▸ hkp
    refine ⟨j, (udpUnbind_active hw.binds).mpr ⟨hj, hjp'⟩, ?_⟩
    rw [udpUnbind_of_ne hw.binds hjp', portMapRemove_of_ne hunique hkp]
    exact ⟨hjp, hcb⟩
  · obtain ⟨hj, hjp⟩ := (udpUnbind_active hw.binds).mp hj
    rw [udpUnbind_of_ne hw.binds hjp] at hcb ⊢
    obtain ⟨k, hk, hkp⟩ := hw.dispatched j hj hcb
    have hkp' : (w.net.portMap k).port ≠ port := hkp ▸ hjp
    refine ⟨k, (portMapRemove_active hunique).mpr ⟨hk, hkp'⟩, ?_⟩
    rw [portMapRemove_of_ne hunique hkp', hkp]

end

/-- What a close does to the world: nothing, or it frees the slot after giving up the local port
of a socket that is at least bound. -/
theorem World.step_close_cases (w : World) (fd : ℤ) :
    w.step (.close fd) = w ∨
      ∃ i s', socketGet w.net fd = some i ∧
        w.step (.close fd) = ⟨s'.setSocket i { w.net.sockets i with
          rxRing := rxRingInit (w.net.sockets i).rxRing, state := .free },
          update w.boundPort i none⟩ ∧
        ((w.net.sockets i).state.atLeastBound = true ∧
            s' = { w.net with
              bindTable := udpUnbind w.net.bindTable (ntohs (w.net.sockets i).local'.sinPort)
              portMap := portMapRemove w.net.portMap (ntohs (w.net.sockets i).local'.sinPort) } ∨
          ¬((w.net.sockets i).state.atLeastBound = true ∧
            (w.net.sockets i).protocol = ipprotoUdp) ∧ s' = w.net) := by
  simp only [step]
  fun_cases sockClose w.net fd
  case case1 =>
    have hrec : recordClose w fd sockErrBadf = w.boundPort := by
      unfold recordClose
      split <;> simp [sockErrBadf, sockErrOk]
    exact .inl (by rw [hrec])
  case case2 i hget x s' =>
    refine .inr ⟨i, s', hget, ?_, ?_⟩
    · simp only [recordClose, (socketGet_eq_some hget).1, if_true]
      rfl
    · by_cases h : x.state.atLeastBound = true ∧ x.protocol = ipprotoUdp
      · exact .inl ⟨h.1, by simp only [s', if_pos h]; rfl⟩
      · exact .inr ⟨h, by simp only [s', if_neg h]⟩

/-- Freeing the slot of a socket that is not bound. -/
theorem World.Bound.free (hw : w.Bound) (hi : w.boundPort i = none) (hx : x.state = .free) :
    World.Bound { w with net := w.net.setSocket i x } := by
  refine ⟨hw.unique, hw.mapped, hw.held, hw.binds, fun l p hl => ?_, fun l hl => ?_⟩ <;>
    have hli : l ≠ i := by
      rintro rfl
      simp_all [NetState.setSocket]
  · simpa [NetState.setSocket, update_of_ne hli] using hw.local_ l p hl
  · simp only [NetState.setSocket, update_of_ne hli] at hl ⊢
    exact hw.udp l hl

/-- A close that meets the condition keeps the invariant. -/
theorem World.Inv.close (hw : w.Inv) (hmeet : w.Meets (.close fd)) :
    (w.step (.close fd)).Inv := by
  rcases w.step_close_cases fd with hsame | ⟨i, s', hget, hclose, hcase⟩
  · rwa [hsame]
  have hinv : World.Inv { net := s', boundPort := update w.boundPort i none } := by
    rcases hcase with ⟨hbound, rfl⟩ | ⟨hnot, rfl⟩
    · refine hw.unbind (fun p hp => (hw.local_ i p hp).2.symm) (fun hnone => ?_)
      exact hmeet i hget hnone hbound
    · have hnone := hw.boundPort_eq_none fun hi =>
        hnot ⟨hi, hw.udp i (socketGet_eq_some hget).2⟩
      rwa [← hnone, update_eq_self]
  rw [hclose]
  exact ⟨hinv.toBound.free (update_self _ _ _) rfl, hinv.single, hinv.registered, hinv.dispatched⟩

/-- One call or input that meets the condition keeps the invariant. -/
theorem World.Inv.step (hw : w.Inv) (op : SockOp) (hmeet : w.Meets op) :
    (w.step op).Inv := by
  cases op with
  | create domain type protocol =>
    exact hw.of_keepsBindings (sockCreate_keepsBindings _ _ _ _)
  | bind fd addr => exact hw.bind hmeet
  | sendto fd buf dest dev ret =>
    exact hw.of_keepsBindings (sockSendto_keepsBindings _ _ _ _ _ _)
  | recvfrom fd maxlen => exact hw.of_keepsBindings (sockRecvfrom_keepsBindings _ _ _)
  | connect fd addr => exact hw.of_keepsBindings (sockConnect_keepsBindings _ _ _)
  | close fd => exact hw.close hmeet
  | input nb src => exact hw.of_keepsBindings (udpInput_keepsBindings _ _ _)

/-- The state after `socket_init` satisfies the invariant. -/
theorem World.Initial.inv (hw : w.Initial) : w.Inv where
  unique k _ hk := by simp [hw.unmapped k] at hk
  mapped k hk := by simp [hw.unmapped k] at hk
  held i p hp := by simp [hw.unbound i] at hp
  binds := hw.ports
  single k _ hk := by simp [hw.unmapped k] at hk
  registered k hk := by simp [hw.unmapped k] at hk
  dispatched j hj hcb := absurd hcb (hw.others j hj)
  local_ i p hp := by simp [hw.unbound i] at hp
  udp i hi := absurd (hw.free i) hi

/-- Under the invariant a datagram changes the ring of the owner of its port only. -/
theorem World.Inv.deliversOnlyToOwner (hw : w.Inv) : w.DeliversOnlyToOwner := by
  intro nb src d i hparse hchanged
  unfold udpInput at hchanged
  split at hchanged
  · rename_i d' hrecv
    obtain ⟨hparse', j, hj, hjp, hcb⟩ := udpReceive_eq_some hrecv
    obtain rfl : d = d' := Option.some.inj (hparse.symm.trans hparse')
    obtain ⟨k, hk, hkp⟩ := hw.dispatched j hj hcb
    rcases socketUdpDispatch_cases w.net src d.srcPort d.payload with
      h | ⟨k', l, ring, hk', hsock, _, _, h⟩
    · simp [h] at hchanged
    · -- The entry the dispatcher stops at is the only active one, that of the port.
      obtain rfl := hw.single k k' hk hk'
      obtain ⟨l', hsock', hl'⟩ := hw.mapped k hk
      obtain rfl : l = l' := Option.some.inj (hsock.symm.trans hsock')
      have hil : i = l := by
        by_contra hne
        simp [h, NetState.setSocket, update_of_ne hne] at hchanged
      rw [hil, hl', hkp, hjp]
  · exact absurd rfl hchanged

/-- Under the invariant a datagram reaches the ring of the owner of its port. -/
theorem World.Inv.deliversToOwner (hw : w.Inv) : w.DeliversToOwner := by
  intro nb src d i ring hparse howner hpush
  obtain ⟨k, hk, hkp, hsock⟩ := hw.held i d.dstPort howner
  obtain ⟨j, hj, hjp, hcb⟩ := hw.registered k hk
  have hrecv : udpReceive w.net.bindTable nb = some (.socketUdpDispatch, d) := by
    rw [udpReceive_of_bound hw.binds hparse hj (hjp.trans hkp), hcb]
  have hfind : firstFin (dispatchTest w.net) = some k := by
    apply firstFin_unique
    · simp [dispatchTest, hk, hsock, (hw.local_ i _ howner).1]
    · intro l hl
      simp only [dispatchTest, Bool.and_eq_true] at hl
      exact hw.single l k hl.1 hk
  simp [udpInput, hrecv, socketUdpDispatch, hfind, hsock, hpush, NetState.setSocket]

/-- A socket slot as `socket_init` leaves it. -/
def freeSocket (i : Fin socketMax) : Socket where
  fd := i
  domain := 0
  type := 0
  protocol := 0
  state := .free
  local' := ⟨0, 0, .zero⟩
  remote := ⟨0, 0, .zero⟩
  rxRing := ⟨fun _ => ⟨[], ⟨0, 0, .zero⟩, false⟩, 0, 0, 0⟩
  nonBlocking := false
  broadcast := false
  reuseAddr := false
  dev := none

/-- The world after `udp_init` and `socket_init`. -/
def bootWorld : World where
  net := ⟨fun _ => ⟨0, .other 0, false⟩, fun _ => ⟨0, none, false⟩, freeSocket⟩
  boundPort := fun _ => none

theorem bootWorld_initial : bootWorld.Initial :=
  ⟨fun _ => rfl, fun _ => rfl, fun _ _ h => (nomatch h), fun _ h => (nomatch h), fun _ => rfl⟩

/-- A packet from port 7 to port 54 with the one byte 65 as payload. -/
def packetTo54 : List UInt8 := [0, 7, 0, 54, 0, 9, 0, 0, 65]

/-- Two sockets, bound to the ports 53 and 54. -/
def bindTwo : List SockOp :=
  [.create 2 2 0, .create 2 2 0, .bind 0 (some (sockaddrInMake .zero 53)),
    .bind 1 (some (sockaddrInMake .zero 54))]

/-- A socket bound to the ephemeral port of the second slot, whose socket then
sends once and is closed. -/
def closeEphemeral : List SockOp :=
  [.create 2 2 0, .create 2 2 0, .bind 0 (some (sockaddrInMake .zero 49153)),
    .sendto 1 (some [65]) (some (sockaddrInMake .zero 9)) (some ⟨.zero⟩) 0, .close 1]

/-- One socket bound to port 53, next to one that sends and is closed. -/
def bindOne : List SockOp :=
  [.create 2 2 0, .create 2 2 0, .bind 0 (some (sockaddrInMake .zero 53)),
    .sendto 1 (some [65]) (some (sockaddrInMake .zero 53)) (some ⟨.zero⟩) 0, .close 1]

/-- In every run whose binds and closes meet the condition, a datagram for a port
reaches the ring of the socket bound to that port and changes no other ring. -/
theorem udp_delivery_isolated (w : World) (hw : w.Initial) (ops : List SockOp)
    (hmeets : Guarded World.step World.Meets w ops) :
    (run World.step w ops).DeliversOnlyToOwner ∧ (run World.step w ops).DeliversToOwner := by
  have hinv : (run World.step w ops).Inv :=
    run_invariant (fun s op hs hop => hs.step op hop) hw.inv hmeets
  exact ⟨hinv.deliversOnlyToOwner, hinv.deliversToOwner⟩

/-- The condition admits a bound socket next to one that only sends. -/
theorem udp_delivery_isolated_bindOne :
    (run World.step bootWorld bindOne).boundPort 0 = some 53 ∧
      (run World.step bootWorld bindOne).DeliversOnlyToOwner ∧
      (run World.step bootWorld bindOne).DeliversToOwner := by
  refine ⟨by decide, udp_delivery_isolated bootWorld bootWorld_initial bindOne ?_⟩
  refine ⟨trivial, trivial, fun _ => ?_, trivial, ?_, trivial⟩
  · decide
  · unfold World.Meets
    decide

/-- With two sockets bound, a datagram for the second lands on the ring of the first;
and a close of a socket that never called `sock_bind` cuts off the one that did. -/
theorem udp_delivery_misdirected :
    ¬ (run World.step bootWorld bindTwo).DeliversOnlyToOwner ∧
      ¬ (run World.step bootWorld closeEphemeral).DeliversToOwner := by
  constructor
  · intro h
    have hring : ((udpInput (run World.step bootWorld bindTwo).net packetTo54 .zero).sockets
        0).rxRing ≠ ((run World.step bootWorld bindTwo).net.sockets 0).rxRing := by
      intro heq
      have := congrArg RxRing.count heq
      revert this
      decide
    have := h packetTo54 .zero ⟨7, 54, [65]⟩ 0 (by decide) hring
    revert this
    decide
  · intro h
    have := congrArg RxRing.count (h [0, 7, 192, 1, 0, 9, 0, 0, 65] .zero ⟨7, 49153, [65]⟩ 0
      ⟨update (fun _ => ⟨[], ⟨0, 0, .zero⟩, false⟩) 0
        ⟨[65], sockaddrInMake .zero 7, true⟩, 1, 0, 1⟩
      (by decide) (by decide) (by decide))
    revert this
    decide

end Tomahawk.Net
