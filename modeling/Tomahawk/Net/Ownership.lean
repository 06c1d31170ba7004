import Tomahawk.Net.PortIsolation

/-!
# Who owns a port

The bind table of `udp.c` serves the socket layer and other users, each entry with a callback
only. A ledger adds to the world of the sockets for whom each entry was made. A socket that was
bound by `sock_sendto` or connected without a bind holds no entry, and a user that unbinds a
port need not hold it; `Ledger.Meets` says when a close then still gives up no entry but the
own ones of the socket.
-/

namespace Tomahawk.Net

open Function Tomahawk.Lib

/-- For whom an entry of the bind table was made. -/
inductive Owner where
  | socket (i : Fin socketMax)
  | user (user : ℕ)
  deriving DecidableEq

/-- The calls of the socket layer, and those of the other users of the UDP layer. -/
inductive PortOp where
  | sock (op : SockOp)
  | udpBind (port : UInt16) (user : ℕ)
  | udpUnbind (port : UInt16)

/-- The world of the sockets with the owner of each entry of the bind table. -/
structure Ledger where
  world : World
  owner : Fin udpMaxBinds → Option Owner

/-- The bind table of a ledger. -/
abbrev Ledger.binds (l : Ledger) : BindTable := l.world.net.bindTable

/-- The port map of a ledger. -/
abbrev Ledger.ports (l : Ledger) : PortMap := l.world.net.portMap

/-- Another bind table. -/
def Ledger.withBinds (l : Ledger) (t : BindTable) : Ledger :=
  { l with world := { l.world with net := { l.world.net with bindTable := t } } }

/-- An entry that became active belongs to the one who made it. -/
def recordOwner (t t' : BindTable) (o : Owner) (owner : Fin udpMaxBinds → Option Owner) :
    Fin udpMaxBinds → Option Owner :=
  fun j => if (t j).active = false ∧ (t' j).active = true then some o else owner j

/-- The owners after a call of the socket layer: only `sock_bind` makes entries. -/
def Ledger.sockOwner (l : Ledger) (op : SockOp) : Fin udpMaxBinds → Option Owner :=
  match op with
  | .bind fd _ =>
    match socketIndex fd with
    | some i => recordOwner l.binds (l.world.step op).net.bindTable (.socket i) l.owner
    | none => l.owner
  | _ => l.owner

/-- One call. -/
def Ledger.step (l : Ledger) : PortOp → Ledger
  | .sock op => ⟨l.world.step op, l.sockOwner op⟩
  | .udpBind port user =>
    match Net.udpBind l.binds port (.other user) with
    | some t => { l.withBinds t with owner := recordOwner l.binds t (.user user) l.owner }
    | none => l
  | .udpUnbind port => l.withBinds (Net.udpUnbind l.binds port)

/-- The active entries of the port map and the sockets that a bind has bound, and no close has
closed, correspond one to one. -/
def World.Corresponds (w : World) : Prop :=
  (∀ k, (w.net.portMap k).active = true →
    ∃ i, (w.net.portMap k).sock = some i ∧ w.boundPort i = some (w.net.portMap k).port) ∧
  ∀ i p, w.boundPort i = some p →
    ∃! k, (w.net.portMap k).active = true ∧ (w.net.portMap k).sock = some i

/-- A close deactivates no entry that was made for another owner. -/
def Ledger.ClosesOwn (l : Ledger) (fd : ℤ) : Prop :=
  (∀ j, (l.binds j).active = true → ((l.step (.sock (.close fd))).binds j).active = false →
    ∃ i, socketGet l.world.net fd = some i ∧ l.owner j = some (.socket i)) ∧
  ∀ k, (l.ports k).active = true → ((l.step (.sock (.close fd))).ports k).active = false →
    ∃ i, socketGet l.world.net fd = some i ∧ (l.ports k).sock = some i

/-- For the local port of a socket that no `sock_bind` has bound there is no entry, and the port
of one that is bound was not taken over by another user. -/
def Ledger.ClosesClean (l : Ledger) (i : Fin socketMax) : Prop :=
  let port := ntohs (l.world.net.sockets i).local'.sinPort
  if l.world.boundPort i = none then
    (∀ j, (l.binds j).active = true → (l.binds j).port ≠ port) ∧
      ∀ k, (l.ports k).active = true → (l.ports k).port ≠ port
  else ∀ j, (l.binds j).active = true → (l.binds j).port = port →
    (l.binds j).cb = .socketUdpDispatch

/-- The condition on the calls: a close of a socket that is at least bound is clean. -/
def Ledger.Meets (l : Ledger) : PortOp → Prop
  | .sock (.close fd) => ∀ i, socketGet l.world.net fd = some i →
      (l.world.net.sockets i).state.atLeastBound = true → l.ClosesClean i
  | _ => True

instance (l : Ledger) (i : Fin socketMax) : Decidable (l.ClosesClean i) := by
  unfold Ledger.ClosesClean
  infer_instance

instance (l : Ledger) (op : PortOp) : Decidable (l.Meets op) := by
  cases op with
  | udpBind port user => exact instDecidableTrue
  | udpUnbind port => exact instDecidableTrue
  | sock op => cases op <;> unfold Ledger.Meets <;> infer_instance

/-- What ties the tables, the sockets and the owners together. -/
structure Ledger.Inv (l : Ledger) : Prop extends l.world.Bound where
  /-- What is bound to the dispatcher was made for the socket that has the port. -/
  dispatched : ∀ j, (l.binds j).active = true → (l.binds j).cb = .socketUdpDispatch →
    ∃ i, l.owner j = some (.socket i) ∧ l.world.boundPort i = some (l.binds j).port

variable {l : Ledger} {t : BindTable} {owner : Fin udpMaxBinds → Option Owner} {j : Fin udpMaxBinds}

theorem Ledger.Inv.corresponds (h : l.Inv) : l.world.Corresponds := by
  refine ⟨h.mapped, fun i p hp => ?_⟩
  obtain ⟨k, hk, hkp, hks⟩ := h.held i p hp
  refine ⟨k, ⟨hk, hks⟩, fun k' hk' => ?_⟩
  obtain ⟨i', hsock, hport⟩ := h.mapped k' hk'.1
  obtain rfl : i' = i := Option.some.inj (hsock.symm.trans hk'.2)
  exact h.unique k' k hk'.1 hk (by rw [hkp]; exact Option.some.inj (hport.symm.trans hp))

/-- The invariant survives a call that keeps the bindings. -/
theorem Ledger.Inv.of_keepsBindings (h : l.Inv) {s' : NetState}
    (hkeeps : l.world.net.KeepsBindings s') :
    Ledger.Inv { l with world := { l.world with net := s' } } :=
  ⟨h.toBound.of_keepsBindings hkeeps,
    by simpa only [Ledger.binds, hkeeps.bindTable] using h.dispatched⟩

/-- Fewer entries of the bind table. -/
theorem Ledger.Inv.shrink (h : l.Inv) (ht : ∀ j, (t j).active = true → t j = l.binds j) :
    (l.withBinds t).Inv where
  unique := h.unique
  mapped := h.mapped
  held := h.held
  local_ := h.local_
  udp := h.udp
  binds := UniqueKeys.sub UdpBindEntry.active UdpBindEntry.port h.binds ht
  dispatched j hj hcb := by
    have htj : (l.withBinds t).binds j = l.binds j := ht j hj
    rw [htj] at hj hcb ⊢
    exact h.dispatched j hj hcb

theorem recordOwner_of_active {t' : BindTable} {o : Owner} (hj : (t j).active = true) :
    recordOwner t t' o owner j = owner j := by
  unfold recordOwner
  rw [if_neg fun hnew => by rw [hj] at hnew; cases hnew.1]

/-- Another user binds a port. -/
theorem Ledger.Inv.udpBind (h : l.Inv) (port : UInt16) (user : ℕ) :
    (l.step (.udpBind port user)).Inv := by
  simp only [Ledger.step]
  cases ht : Net.udpBind l.binds port (.other user) with
  | none => exact h
  | some t =>
    obtain ⟨hfresh, k, hk, heq⟩ := udpBind_eq_some ht
    refine ⟨{ h.toBound with binds := h.binds.bind ht }, fun j hj hcb => ?_⟩
    by_cases hjk : j = k
    · subst hjk
      have hcb : (t j).cb = .socketUdpDispatch := hcb
      rw [heq, update_self] at hcb
      cases hcb
    · have htj : t j = l.binds j := by rw [heq, update_of_ne hjk]
      have hj : (t j).active = true := hj
      have hcb : (t j).cb = .socketUdpDispatch := hcb
      rw [htj] at hj hcb
      obtain ⟨i, howner, hport⟩ := h.dispatched j hj hcb
      refine ⟨i, (recordOwner_of_active hj).trans howner, ?_⟩
      · change l.world.boundPort i = some (t j).port
        rw [htj]
        exact hport

/-- Some user unbinds a port. -/
theorem Ledger.Inv.udpUnbind (h : l.Inv) (port : UInt16) : (l.step (.udpUnbind port)).Inv := by
  refine h.shrink fun j hj => ?_
  exact udpUnbind_of_ne h.binds ((udpUnbind_active h.binds).mp hj).2

/-- No entry of the port map has a port that `port_map_find` does not find. -/
theorem Ledger.Inv.unmapped (h : l.Inv) {port : UInt16}
    (hfind : portMapFind l.ports port = none) (k : Fin socketMax)
    (hk : (l.ports k).active = true) : (l.ports k).port ≠ port := by
  intro hport
  unfold portMapFind at hfind
  cases hfirst : firstFin (portMatches l.ports port) with
  | none =>
    have hno := firstFin_eq_none.mp hfirst k
    simp [portMatches, hk, hport] at hno
  | some k' =>
    have hmatch := firstFin_spec hfirst
    simp only [portMatches, Bool.and_eq_true] at hmatch
    obtain ⟨i, hsock, -⟩ := h.mapped k' hmatch.1
    rw [hfirst] at hfind
    dsimp only at hfind
    rw [hsock] at hfind
    cases hfind

/-- The owners of active entries are all that matters. -/
theorem Ledger.Inv.withOwner (h : l.Inv)
    (howner : ∀ j, (l.binds j).active = true → owner j = l.owner j) :
    Ledger.Inv { l with owner := owner } := by
  refine ⟨h.toBound, fun j hj hcb => ?_⟩
  obtain ⟨i, hi, hport⟩ := h.dispatched j hj hcb
  exact ⟨i, (howner j hj).trans hi, hport⟩

theorem Ledger.sockOwner_of_active {fd : ℤ} {addr : Option SockaddrIn}
    (hj : (l.binds j).active = true) : l.sockOwner (.bind fd addr) j = l.owner j := by
  unfold Ledger.sockOwner
  dsimp only
  cases socketIndex fd with
  | none => rfl
  | some i => exact recordOwner_of_active hj

/-- A socket is bound. -/
theorem Ledger.Inv.sockBind (h : l.Inv) (fd : ℤ) (addr : Option SockaddrIn) :
    (l.step (.sock (.bind fd addr))).Inv := by
  have howner : ∀ j, (l.binds j).active = true → l.sockOwner (.bind fd addr) j = l.owner j :=
    fun j hj => Ledger.sockOwner_of_active hj
  rcases l.world.step_bind_cases fd addr with
    hworld | ⟨i, addr', t, hcan, hidx, rfl, hcreated, ht, hcase⟩
  · simp only [Ledger.step, hworld]
    exact h.withOwner howner
  obtain ⟨hfresh, j, hj, heq⟩ := udpBind_eq_some ht
  have ht' := h.binds.bind ht
  rcases hcase with ⟨-, hworld⟩ | ⟨k, hk, hworld⟩
  · -- The port map is full: the entry of the bind table is given up again.
    have hleft : ∀ x, (Net.udpUnbind t (ntohs addr'.sinPort) x).active = true →
        Net.udpUnbind t (ntohs addr'.sinPort) x = l.binds x := by
      intro x hx
      have hport := ((udpUnbind_active ht').mp hx).2
      rw [udpUnbind_of_ne ht' hport, heq]
      refine update_of_ne ?_ _ _
      rintro rfl
      rw [heq, update_self] at hport
      exact hport rfl
    have hinv := (h.withOwner howner).shrink hleft
    simp only [Ledger.step, hworld]
    exact hinv
  · obtain ⟨i', addr'', -, -, haddr, -, hfind, -⟩ := hcan
    obtain rfl : addr' = addr'' := Option.some.inj haddr
    have hnone := h.boundPort_eq_none (i := i) (by rw [hcreated]; decide)
    have hself : l.sockOwner (.bind fd (some addr')) j = some (.socket i) := by
      simp only [Ledger.sockOwner, hidx, recordOwner, hworld]
      refine if_pos ⟨hj, ?_⟩
      change (t j).active = true
      rw [heq, update_self]
    have hbound := h.toBound.bind hcreated hk (h.unmapped hfind) ht
    simp only [Ledger.step, hworld]
    refine ⟨hbound, fun a ha hcb => ?_⟩
    change (t a).active = true at ha
    change (t a).cb = .socketUdpDispatch at hcb
    change ∃ x, l.sockOwner (.bind fd (some addr')) a = some (.socket x) ∧
      update l.world.boundPort i (some (ntohs addr'.sinPort)) x = some (t a).port
    by_cases haj : a = j
    · subst haj
      refine ⟨i, hself, ?_⟩
      rw [heq, update_self, update_self]
    · have hta : t a = l.binds a := by rw [heq, update_of_ne haj]
      rw [hta] at ha hcb ⊢
      obtain ⟨x, hx, hport⟩ := h.dispatched a ha hcb
      have hxi : x ≠ i := by
        rintro rfl
        rw [hnone] at hport
        cases hport
      exact ⟨x, (howner a ha).trans hx, by rw [update_of_ne hxi, hport]⟩

/-- In the state `s'` the socket `i` has given up its entries, and only these. -/
def Ledger.GivenUp (l : Ledger) (i : Fin socketMax) (s' : NetState) : Prop :=
  (∀ j, (l.binds j).active = true → (s'.bindTable j).active = false →
      l.owner j = some (.socket i)) ∧
    (∀ k, (l.ports k).active = true → (s'.portMap k).active = false →
      (l.ports k).sock = some i) ∧
    Ledger.Inv { l with world := ⟨s', update l.world.boundPort i none⟩ }

/-- A socket without a port has nothing to give up. -/
theorem Ledger.Inv.nothing (h : l.Inv) {i : Fin socketMax} (hi : l.world.boundPort i = none) :
    l.GivenUp i l.world.net := by
  refine ⟨fun j hj hgone => (nomatch hj.symm.trans hgone),
    fun k hk hgone => (nomatch hk.symm.trans hgone), ?_⟩
  rw [← hi, update_eq_self]
  exact h

/-- The close of a socket that holds a port gives up its entries. -/
theorem Ledger.Inv.giveUp (h : l.Inv) {i : Fin socketMax} {p : UInt16}
    (hi : l.world.boundPort i = some p)
    (hcb : ∀ j, (l.binds j).active = true → (l.binds j).port = p →
      (l.binds j).cb = .socketUdpDispatch) :
    l.GivenUp i { l.world.net with
      bindTable := Net.udpUnbind l.binds p
      portMap := portMapRemove l.ports p } := by
  have hbind : ∀ j, (l.binds j).active = true → (Net.udpUnbind l.binds p j).active = false →
      (l.binds j).port = p := by
    intro j hj hgone
    by_contra hne
    rw [(udpUnbind_active h.binds).mpr ⟨hj, hne⟩] at hgone
    cases hgone
  have hmap : ∀ k, (l.ports k).active = true → (portMapRemove l.ports p k).active = false →
      (l.ports k).port = p := by
    intro k hk hgone
    by_contra hne
    rw [(portMapRemove_active h.unique).mpr ⟨hk, hne⟩] at hgone
    cases hgone
  have hport : ∀ q, l.world.boundPort i = some q → q = p :=
    fun q hq => Option.some.inj (hq.symm.trans hi)
  have hbound := h.toBound.unbind hport fun hnone => by
    rw [hi] at hnone
    cases hnone
  refine ⟨fun j hj hgone => ?_, fun k hk hgone => ?_, hbound, fun a ha hacb => ?_⟩
  · have hport := hbind j hj hgone
    obtain ⟨x, hx, hxport⟩ := h.dispatched j hj (hcb j hj hport)
    rw [hport] at hxport
    rw [hx, h.boundPort_inj hxport hi]
  · obtain ⟨x, hx, hxport⟩ := h.mapped k hk
    rw [hmap k hk hgone] at hxport
    rw [hx, h.boundPort_inj hxport hi]
  · obtain ⟨ha, hap⟩ := (udpUnbind_active h.binds).mp ha
    change (Net.udpUnbind l.binds p a).cb = .socketUdpDispatch at hacb
    change ∃ x, l.owner a = some (.socket x) ∧
      update l.world.boundPort i none x = some (Net.udpUnbind l.binds p a).port
    rw [udpUnbind_of_ne h.binds hap] at hacb ⊢
    obtain ⟨x, hx, hxport⟩ := h.dispatched a ha hacb
    refine ⟨x, hx, ?_⟩
    rw [update_of_ne, hxport]
    rintro rfl
    exact hap (hport _ hxport)

/-- A close that meets the condition keeps the invariant and gives up no entry of others. -/
theorem Ledger.Inv.sockClose (h : l.Inv) (fd : ℤ) (hmeets : l.Meets (.sock (.close fd))) :
    l.ClosesOwn fd ∧ (l.step (.sock (.close fd))).Inv := by
  rcases l.world.step_close_cases fd with hworld | ⟨i, s', hget, hworld, hcase⟩
  · have hstep : l.step (.sock (.close fd)) = l := by simp only [Ledger.step, hworld, Ledger.sockOwner]
    unfold Ledger.ClosesOwn
    rw [hstep]
    exact ⟨⟨fun j hj hgone => (nomatch hj.symm.trans hgone),
      fun k hk hgone => (nomatch hk.symm.trans hgone)⟩, h⟩
  -- What the tables are before the slot becomes free.
  obtain ⟨hbinds, hports, hinv⟩ : l.GivenUp i s' := by
    rcases hcase with ⟨hbound, rfl⟩ | ⟨hnot, rfl⟩
    · have hclean := hmeets i hget hbound
      unfold Ledger.ClosesClean at hclean
      cases hi : l.world.boundPort i with
      | some p =>
        rw [hi, if_neg (Option.some_ne_none p)] at hclean
        rw [(h.local_ i p hi).2] at hclean ⊢
        exact h.giveUp hi hclean
      | none =>
        rw [hi, if_pos rfl] at hclean
        obtain ⟨hbinds, hports⟩ := hclean
        have hsameBinds : Net.udpUnbind l.binds
            (ntohs (l.world.net.sockets i).local'.sinPort) = l.binds :=
          funext fun j => by rw [udpUnbind_apply h.binds, if_neg fun hj => hbinds j hj.1 hj.2]
        have hsamePorts : portMapRemove l.ports
            (ntohs (l.world.net.sockets i).local'.sinPort) = l.ports :=
          funext fun k => by rw [portMapRemove_apply h.unique, if_neg fun hk => hports k hk.1 hk.2]
        rw [hsameBinds, hsamePorts]
        exact h.nothing hi
    · exact h.nothing (h.boundPort_eq_none fun hi =>
        hnot ⟨hi, h.udp i (socketGet_eq_some hget).2⟩)
  refine ⟨⟨fun j hj hgone => ⟨i, hget, hbinds j hj ?_⟩, fun k hk hgone => ⟨i, hget, hports k hk ?_⟩⟩,
    ?_⟩
  · simp only [Ledger.step, hworld] at hgone
    exact hgone
  · simp only [Ledger.step, hworld] at hgone
    exact hgone
  · simp only [Ledger.step, hworld]
    exact ⟨hinv.toBound.free (update_self _ _ _) rfl, hinv.dispatched⟩

/-- One call that meets the condition keeps the invariant. -/
theorem Ledger.Inv.step (h : l.Inv) (op : PortOp) (hmeets : l.Meets op) : (l.step op).Inv := by
  cases op with
  | udpBind port user => exact h.udpBind port user
  | udpUnbind port => exact h.udpUnbind port
  | sock op =>
    cases op with
    | create domain type protocol =>
      exact h.of_keepsBindings (sockCreate_keepsBindings _ _ _ _)
    | bind fd addr => exact h.sockBind fd addr
    | sendto fd buf dest dev ret =>
      exact h.of_keepsBindings (sockSendto_keepsBindings _ _ _ _ _ _)
    | recvfrom fd maxlen => exact h.of_keepsBindings (sockRecvfrom_keepsBindings _ _ _)
    | connect fd addr => exact h.of_keepsBindings (sockConnect_keepsBindings _ _ _)
    | close fd => exact (h.sockClose fd hmeets).2
    | input nb src => exact h.of_keepsBindings (udpInput_keepsBindings _ _ _)

/-- After `socket_init` no socket has an entry. -/
theorem Ledger.inv_of_initial (hl : l.world.Initial) : l.Inv :=
  ⟨hl.inv.toBound, fun j hj hcb => absurd hcb (hl.others j hj)⟩

/-- In every run whose closes meet the condition, the active entries of the port map correspond
one to one to the sockets that are bound, and each close gives up entries of its own socket
only. -/
theorem port_owners_respected (l : Ledger) (hl : l.world.Initial) (ops : List PortOp)
    (hmeets : Guarded Ledger.step Ledger.Meets l ops) :
    (run Ledger.step l ops).world.Corresponds ∧
      ∀ pre fd post, ops = pre ++ .sock (.close fd) :: post →
        (run Ledger.step l pre).ClosesOwn fd := by
  have hrun : ∀ ops, Guarded Ledger.step Ledger.Meets l ops → (run Ledger.step l ops).Inv :=
    fun ops hops => run_invariant (fun _ op hs hop => hs.step op hop)
      (Ledger.inv_of_initial hl) hops
  refine ⟨(hrun ops hmeets).corresponds, ?_⟩
  rintro pre fd post rfl
  obtain ⟨hpre, hclose⟩ := guarded_append.mp hmeets
  exact ((hrun pre hpre).sockClose fd hclose.1).1

/-- The ledger after `udp_init` and `socket_init`. -/
def bootLedger : Ledger := ⟨bootWorld, fun _ => none⟩

/-- Two sockets bound next to DHCP, and one that only sends; two of them are closed. -/
def ownedRun : List PortOp :=
  [.sock (.create 2 2 0), .sock (.create 2 2 0), .sock (.create 2 2 0), .udpBind 68 0,
    .sock (.bind 0 (some (sockaddrInMake .zero 53))),
    .sock (.bind 1 (some (sockaddrInMake .zero 54))),
    .sock (.sendto 2 (some [65]) (some (sockaddrInMake .zero 9)) (some ⟨.zero⟩) 0),
    .sock (.close 2), .sock (.close 0), .udpUnbind 68]

theorem port_owners_respected_owned :
    Guarded Ledger.step Ledger.Meets bootLedger ownedRun ∧
      (run Ledger.step bootLedger ownedRun).world.Corresponds ∧
      ∀ pre fd post, ownedRun = pre ++ .sock (.close fd) :: post →
        (run Ledger.step bootLedger pre).ClosesOwn fd := by
  refine ⟨?hmeets, port_owners_respected bootLedger bootWorld_initial ownedRun ?hmeets⟩
  decide

/-- A socket that `sock_sendto` bound to the port of another takes its entries down with it, so
that the other, still open, has none; and DHCP, which does not look whether its bind succeeded,
loses its entry to a socket whose port it unbound before. -/
theorem port_owners_violated :
    let before := run Ledger.step bootLedger [.sock (.create 2 2 0), .sock (.create 2 2 0),
      .sock (.bind 0 (some (sockaddrInMake .zero 49153))),
      .sock (.sendto 1 (some [65]) (some (sockaddrInMake .zero 9)) (some ⟨.zero⟩) 0)]
    let after := before.step (.sock (.close 1))
    let dhcp := run Ledger.step bootLedger [.sock (.create 2 2 0),
      .sock (.bind 0 (some (sockaddrInMake .zero 68))), .udpBind 68 0, .udpUnbind 68, .udpBind 68 0]
    ((before.binds 0).active = true ∧ before.owner 0 = some (.socket 0) ∧
        (after.binds 0).active = false ∧ (before.ports 0).sock = some 0 ∧
        (before.ports 0).active = true ∧ after.world.boundPort 0 = some 49153 ∧
        ∀ k, (after.ports k).active = false) ∧
      (dhcp.binds 0).active = true ∧ dhcp.owner 0 = some (.user 0) ∧
        ((dhcp.step (.sock (.close 0))).binds 0).active = false := by
  decide

end Tomahawk.Net
