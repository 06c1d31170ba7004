import Tomahawk.Lib.Bytes
import Tomahawk.Lib.Run
import Tomahawk.Net.Udp

/-!
# The DHCP client

`dhcp_discover` broadcasts a Discover, waits for an Offer, broadcasts a Request and waits for
an Ack. One callback on port 68 handles the messages of both waits; it runs from the polling
loops and from the timer. The messages are given in the order in which they reach the port.
-/

namespace Tomahawk.Net

open Tomahawk.Lib

/-- `DHCP_BOOTP_SIZE` -/
def dhcpBootpSize : ℕ := 236

/-- `DHCP_XID`, as its bytes in the message. -/
def dhcpXid : List UInt8 := [0xDE, 0xAD, 0xBE, 0xEF]

/-- The magic cookie in front of the options. -/
def dhcpMagic : List UInt8 := [99, 130, 83, 99]

/-- `DHCP_OPT_MSG_TYPE` -/
def dhcpOptMsgType : UInt8 := 53

/-- `DHCP_OPT_SERVER_ID` -/
def dhcpOptServerId : UInt8 := 54

/-- `DHCP_OPT_SUBNET_MASK` -/
def dhcpOptSubnetMask : UInt8 := 1

/-- `DHCP_OPT_ROUTER` -/
def dhcpOptRouter : UInt8 := 3

/-- `DHCP_OPT_END` -/
def dhcpOptEnd : UInt8 := 255

/-- `DHCP_MSG_OFFER` -/
def dhcpMsgOffer : UInt8 := 2

/-- `DHCP_MSG_ACK` -/
def dhcpMsgAck : UInt8 := 5

/-- A message for port 68: its source port, its bytes and its length. An option at the end of
the message can be read past the length, so the bytes go on behind it. -/
structure DhcpMsg where
  srcPort : UInt16
  data : Bytes
  len : ℕ

/-- The loop of `dhcp_find_option` from offset `i` on. The index has 16 bits, so what does not end
in as many turns as there are indices does not end. -/
def findOptionFrom (opts : Bytes) (optsLen : ℕ) (target : UInt8) : ℕ → ℕ → Option ℕ
  | 0, _ => none
  | fuel + 1, i =>
    if i < optsLen then
      if opts i = dhcpOptEnd then none
      else if opts i = 0 then findOptionFrom opts optsLen target fuel ((i + 1) % 2 ^ 16)
      else if optsLen ≤ i + 1 then none
      else if opts i = target then some (i + 2)
      else findOptionFrom opts optsLen target fuel ((i + 2 + (opts (i + 1)).toNat) % 2 ^ 16)
    else none

/-- `dhcp_find_option`: the offset of the data of the option. -/
def dhcpFindOption (opts : Bytes) (optsLen : ℕ) (target : UInt8) : Option ℕ :=
  findOptionFrom opts optsLen target (2 ^ 16 + 1) 0

/-- The address in the four bytes from an offset on. -/
def addrAt (b : Bytes) (off : ℕ) : Ipv4Addr := ⟨b off, b (off + 1), b (off + 2), b (off + 3)⟩

/-- The options behind the magic cookie. -/
def DhcpMsg.opts (m : DhcpMsg) : Bytes := fun k => m.data (dhcpBootpSize + 4 + k)

/-- An option of a message. -/
def DhcpMsg.option (m : DhcpMsg) (target : UInt8) : Option ℕ :=
  dhcpFindOption m.opts (m.len - dhcpBootpSize - 4) target

/-- The field `yiaddr`. -/
def DhcpMsg.yiaddr (m : DhcpMsg) : Ipv4Addr := addrAt m.data 16

/-- The field `siaddr`. -/
def DhcpMsg.siaddr (m : DhcpMsg) : Ipv4Addr := addrAt m.data 20

/-- The server identifier, or `siaddr` without one. -/
def DhcpMsg.serverId (m : DhcpMsg) : Ipv4Addr :=
  match m.option dhcpOptServerId with
  | some i => addrAt m.opts i
  | none => m.siaddr

/-- The checks of `dhcp_rx_callback`: the type of a message that passes them. -/
def DhcpMsg.msgType (m : DhcpMsg) : Option UInt8 :=
  if m.srcPort ≠ 67 then none
  else if m.len < dhcpBootpSize + 5 then none
  else if m.data.slice 4 4 ≠ dhcpXid then none
  else if m.data.slice dhcpBootpSize 4 ≠ dhcpMagic then none
  else (m.option dhcpOptMsgType).map m.opts

/-- The state of the module and the addresses of the device that is configured. -/
structure Dhcp where
  gotOffer : Bool
  gotAck : Bool
  offeredIp : Ipv4Addr
  serverIp : Ipv4Addr
  mask : Ipv4Addr
  gw : Ipv4Addr
  devIp : Ipv4Addr
  devNetmask : Ipv4Addr
  devGateway : Ipv4Addr
  deriving DecidableEq

/-- The branch of `dhcp_rx_callback` for an Offer. -/
def Dhcp.takeOffer (d : Dhcp) (m : DhcpMsg) : Dhcp :=
  { d with offeredIp := m.yiaddr, serverIp := m.serverId, gotOffer := true }

/-- The branch of `dhcp_rx_callback` for an Ack. The device gets the address of the Offer. -/
def Dhcp.takeAck (d : Dhcp) (m : DhcpMsg) : Dhcp :=
  let mask := match m.option dhcpOptSubnetMask with
    | some i => addrAt m.opts i
    | none => d.mask
  let gw := match m.option dhcpOptRouter with
    | some i => addrAt m.opts i
    | none => d.serverIp
  { d with mask := mask, gw := gw, devIp := d.offeredIp, devNetmask := mask, devGateway := gw,
           gotAck := true }

/-- `dhcp_rx_callback` -/
def dhcpRxCallback (d : Dhcp) (m : DhcpMsg) : Dhcp :=
  if m.msgType = some dhcpMsgOffer ∧ d.gotOffer = false then d.takeOffer m
  else if m.msgType = some dhcpMsgAck ∧ d.gotAck = false then d.takeAck m
  else d

/-- The user of the bind table that `dhcp_rx_callback` is. -/
def dhcpCallback : UdpCallback := .other 68

/-- Whether a message for port 68 reaches `dhcp_rx_callback`. -/
def dhcpHandles (t : BindTable) : Bool :=
  match firstFin (bindMatches t 68) with
  | some i => (t i).cb == dhcpCallback
  | none => false

/-- A message arrives at port 68. -/
def dhcpArrive (t : BindTable) (d : Dhcp) (m : DhcpMsg) : Dhcp :=
  if dhcpHandles t then dhcpRxCallback d m else d

/-- The state that `dhcp_discover` sets up. -/
def Dhcp.reset (d : Dhcp) : Dhcp :=
  { d with gotOffer := false, gotAck := false, offeredIp := .zero, serverIp := .zero,
           mask := ⟨255, 255, 255, 0⟩, gw := .zero }

/-- The bind table during `dhcp_discover`. A failure of `udp_bind` is ignored. -/
def dhcpBind (t : BindTable) : BindTable := (udpBind t 68 dhcpCallback).getD t

/-- `dhcp_discover`, with the messages that arrive before the Request is sent and after it. -/
def dhcpDiscover (linkUp : Bool) (t : BindTable) (d : Dhcp) (before after : List DhcpMsg) :
    BindTable × Dhcp × ℤ :=
  if linkUp then
    let t := dhcpBind t
    let d := run (dhcpArrive t) d.reset before
    if d.gotOffer then
      let d := run (dhcpArrive t) d after
      (udpUnbind t 68, d, if d.gotAck then 0 else -1)
    else (udpUnbind t 68, d, -1)
  else (t, d, -1)

/-- The messages of a proper exchange: the Offer that is accepted has an address, and the Ack
that is accepted comes after the Request, from the chosen server and for the offered address. -/
def DhcpMeets (t : BindTable) (requested : Prop) (d : Dhcp) (m : DhcpMsg) : Prop :=
  dhcpHandles t = true →
    (m.msgType = some dhcpMsgOffer → d.gotOffer = false → m.yiaddr ≠ .zero) ∧
      (m.msgType = some dhcpMsgAck → d.gotAck = false →
        requested ∧ m.yiaddr = d.offeredIp ∧ m.serverId = d.serverIp)

instance (t : BindTable) (requested : Prop) [Decidable requested] (d : Dhcp) (m : DhcpMsg) :
    Decidable (DhcpMeets t requested d m) := by
  unfold DhcpMeets
  infer_instance

/-! ## One message -/

variable {t : BindTable} {d : Dhcp} {m o : DhcpMsg} {l : List DhcpMsg}

/-- A message is ignored, or it is the first Offer, or the first Ack. -/
theorem dhcpArrive_cases (t : BindTable) (d : Dhcp) (m : DhcpMsg) :
    dhcpArrive t d m = d ∧ (dhcpHandles t = true → m.msgType = some dhcpMsgOffer →
        d.gotOffer = true) ∨
      dhcpHandles t = true ∧ m.msgType = some dhcpMsgOffer ∧ d.gotOffer = false ∧
        dhcpArrive t d m = d.takeOffer m ∨
      dhcpHandles t = true ∧ m.msgType = some dhcpMsgAck ∧ d.gotAck = false ∧
        dhcpArrive t d m = d.takeAck m := by
  unfold dhcpArrive dhcpRxCallback
  split_ifs with hhandles hoffer hack
  · exact .inr (.inl ⟨hhandles, hoffer.1, hoffer.2, rfl⟩)
  · exact .inr (.inr ⟨hhandles, hack.1, hack.2, rfl⟩)
  · refine .inl ⟨rfl, fun _ htype => ?_⟩
    simpa [htype] using hoffer
  · exact .inl ⟨rfl, fun htrue => absurd htrue hhandles⟩

/-! ## The two waits -/

/-- The Offer that was accepted. -/
structure Chosen (d : Dhcp) (o : DhcpMsg) : Prop where
  got : d.gotOffer = true
  ip : d.offeredIp = o.yiaddr
  server : d.serverIp = o.serverId
  ne : o.yiaddr ≠ .zero

theorem chosen_takeOffer (hne : m.yiaddr ≠ .zero) : Chosen (d.takeOffer m) m := by
  unfold Dhcp.takeOffer
  constructor
  · dsimp only
  · dsimp only
  · dsimp only
  · exact hne

/-- Later messages do not change the choice. -/
theorem Chosen.arrive (h : Chosen d o) (m : DhcpMsg) : Chosen (dhcpArrive t d m) o := by
  rcases dhcpArrive_cases t d m with ⟨heq, -⟩ | ⟨-, -, hno, -⟩ | ⟨-, -, -, heq⟩
  · rw [heq]
    exact h
  · rw [h.got] at hno
    cases hno
  · rw [heq]
    exact ⟨h.got, h.ip, h.server, h.ne⟩

/-- No Ack is accepted before the Request. -/
theorem gotAck_arrive (hack : d.gotAck = false) (hmeets : DhcpMeets t False d m) :
    (dhcpArrive t d m).gotAck = false := by
  rcases dhcpArrive_cases t d m with ⟨heq, -⟩ | ⟨-, -, -, heq⟩ | ⟨hhandles, htype, hno, -⟩
  · rw [heq]
    exact hack
  · rw [heq]
    exact hack
  · exact absurd ((hmeets hhandles).2 htype hno).1 id

/-- The first wait accepts the first Offer. -/
theorem chosen_of_gotOffer (hg : Guarded (dhcpArrive t) (DhcpMeets t False) d l)
    (hoffer : d.gotOffer = false) (hack : d.gotAck = false)
    (hgot : (run (dhcpArrive t) d l).gotOffer = true) :
    ∃ o, l.find? (fun m => m.msgType = some dhcpMsgOffer) = some o ∧
      Chosen (run (dhcpArrive t) d l) o := by
  induction l generalizing d with
  | nil =>
    rw [run_nil, hoffer] at hgot
    cases hgot
  | cons m l ih =>
    obtain ⟨hm, hl⟩ := hg
    rw [run_cons] at hgot ⊢
    rcases dhcpArrive_cases t d m with ⟨heq, hno⟩ | ⟨hhandles, htype, -, heq⟩ |
      ⟨hhandles, htype, hno, -⟩
    · rw [heq] at hl hgot ⊢
      obtain ⟨o, hfind, hchosen⟩ := ih hl hoffer hack hgot
      refine ⟨o, ?_, hchosen⟩
      have hskip : m.msgType ≠ some dhcpMsgOffer := by
        intro htype
        by_cases hhandles : dhcpHandles t = true
        · rw [hno hhandles htype] at hoffer
          cases hoffer
        · -- Without the callback no Offer is accepted.
          have hkeep : ∀ d' m', dhcpArrive t d' m' = d' := fun d' m' => if_neg hhandles
          have hrun : run (dhcpArrive t) d l = d :=
            run_preserves (I := fun s => s = d) (fun s a hs => (hkeep s a).trans hs) rfl
          rw [hrun, hoffer] at hgot
          cases hgot
      rw [List.find?_cons, decide_eq_false hskip]
      exact hfind
    · refine ⟨m, by rw [List.find?_cons, decide_eq_true htype], ?_⟩
      have hchosen : Chosen (dhcpArrive t d m) m := by
        rw [heq]
        exact chosen_takeOffer ((hm hhandles).1 htype hoffer)
      exact run_preserves (I := fun s => Chosen s m) (fun s a hs => hs.arrive a) hchosen
    · exact absurd ((hm hhandles).2 htype hno).1 id

/-- What the second wait knows: an Ack that was accepted is one of its messages, from the chosen
server, and the device has its address. -/
def Leased (o : DhcpMsg) (after : List DhcpMsg) (d : Dhcp) : Prop :=
  Chosen d o ∧ (d.gotAck = true → ∃ m ∈ after, m.msgType = some dhcpMsgAck ∧
    m.serverId = o.serverId ∧ d.devIp = m.yiaddr ∧ d.devIp ≠ .zero)

theorem Leased.arrive {after : List DhcpMsg} (h : Leased o after d) (hmeets : DhcpMeets t True d m)
    (hmem : m ∈ after) : Leased o after (dhcpArrive t d m) := by
  refine ⟨h.1.arrive m, fun hgot => ?_⟩
  rcases dhcpArrive_cases t d m with ⟨heq, -⟩ | ⟨-, -, hno, -⟩ | ⟨hhandles, htype, hno, heq⟩
  · rw [heq] at hgot ⊢
    exact h.2 hgot
  · rw [h.1.got] at hno
    cases hno
  · obtain ⟨-, hip, hserver⟩ := (hmeets hhandles).2 htype hno
    have hdev : (dhcpArrive t d m).devIp = d.offeredIp := by
      rw [heq]
      rfl
    refine ⟨m, hmem, htype, hserver.trans h.1.server, hdev.trans hip.symm, ?_⟩
    rw [hdev, h.1.ip]
    exact h.1.ne

/-- In every exchange whose messages meet the condition, a return of 0 means that the device has
the address of an Ack that came after the Request, from the server of the first Offer. -/
theorem dhcp_lease_acked (linkUp : Bool) (t : BindTable) (d : Dhcp) (before after : List DhcpMsg)
    (hbefore : Guarded (dhcpArrive (dhcpBind t)) (DhcpMeets (dhcpBind t) False) d.reset before)
    (hafter : Guarded (dhcpArrive (dhcpBind t)) (DhcpMeets (dhcpBind t) True)
      (run (dhcpArrive (dhcpBind t)) d.reset before) after)
    (hret : (dhcpDiscover linkUp t d before after).2.2 = 0) :
    let ip := (dhcpDiscover linkUp t d before after).2.1.devIp
    ip ≠ .zero ∧ ∃ o, before.find? (fun m => m.msgType = some dhcpMsgOffer) = some o ∧
      ∃ m ∈ after, m.msgType = some dhcpMsgAck ∧ m.serverId = o.serverId ∧ ip = m.yiaddr := by
  have hnoAck : (run (dhcpArrive (dhcpBind t)) d.reset before).gotAck = false :=
    run_invariant (I := fun s => s.gotAck = false) (fun _ _ hs hg => gotAck_arrive hs hg) rfl
      hbefore
  revert hret
  unfold dhcpDiscover
  cases linkUp with
  | false =>
    intro hret
    cases hret
  | true =>
    rw [if_pos rfl]
    by_cases hoffer : (run (dhcpArrive (dhcpBind t)) d.reset before).gotOffer = true
    swap
    · rw [if_neg hoffer]
      intro hret
      cases hret
    obtain ⟨o, hfind, hchosen⟩ := chosen_of_gotOffer hbefore rfl rfl hoffer
    have hstart : Leased o after (run (dhcpArrive (dhcpBind t)) d.reset before) := by
      refine ⟨hchosen, fun hgot => ?_⟩
      rw [hnoAck] at hgot
      cases hgot
    have hleased : Leased o after (run (dhcpArrive (dhcpBind t))
        (run (dhcpArrive (dhcpBind t)) d.reset before) after) :=
      run_invariant (I := Leased o after) (fun _ _ hs hg => hs.arrive hg.1 hg.2) hstart
        (hafter.and_forall fun _ hm => hm)
    dsimp only
    split_ifs with hack
    · intro _
      obtain ⟨m, hmem, htype, hserver, hip, hne⟩ := hleased.2 hack
      exact ⟨hne, o, hfind, m, hmem, htype, hserver, hip⟩
    · intro hret
      cases hret

/-- A message of a server, with its type and the server identifier as options. -/
def serverMessage (type : UInt8) (yi server : Ipv4Addr) : DhcpMsg :=
  let bytes := List.replicate 4 0 ++ dhcpXid ++ List.replicate 8 0 ++ [yi.b0, yi.b1, yi.b2, yi.b3] ++
    List.replicate 216 0 ++ dhcpMagic ++
    [dhcpOptMsgType, 1, type, dhcpOptServerId, 4, server.b0, server.b1, server.b2, server.b3,
      dhcpOptEnd]
  ⟨67, fun k => bytes.getD k 0, bytes.length⟩

/-- The module and the device at boot. -/
def dhcpBoot : Dhcp :=
  ⟨false, false, .zero, .zero, ⟨255, 255, 255, 0⟩, .zero, .zero, .zero, .zero⟩

/-- The empty bind table of `udp_init`. -/
def noBinds : BindTable := fun _ => ⟨0, dhcpCallback, false⟩

/-- The Offer of a server. -/
def firstOffer : DhcpMsg := serverMessage dhcpMsgOffer ⟨10, 0, 2, 15⟩ ⟨10, 0, 2, 2⟩

/-- The Offer of another server. -/
def secondOffer : DhcpMsg := serverMessage dhcpMsgOffer ⟨10, 0, 2, 99⟩ ⟨10, 0, 2, 3⟩

/-- The Ack of the first server. -/
def firstAck : DhcpMsg := serverMessage dhcpMsgAck ⟨10, 0, 2, 15⟩ ⟨10, 0, 2, 2⟩

/-- The Ack of the second server. -/
def secondAck : DhcpMsg := serverMessage dhcpMsgAck ⟨10, 0, 2, 99⟩ ⟨10, 0, 2, 3⟩

/-- Two servers answer; the first one is chosen and acknowledges. -/
theorem dhcp_lease_acked_first :
    (dhcpDiscover true noBinds dhcpBoot [firstOffer, secondOffer]
      [secondOffer, firstAck, firstAck]).2.2 = 0 ∧
    let ip := (dhcpDiscover true noBinds dhcpBoot [firstOffer, secondOffer]
      [secondOffer, firstAck, firstAck]).2.1.devIp
    ip ≠ .zero ∧
      ∃ o, [firstOffer, secondOffer].find? (fun m => m.msgType = some dhcpMsgOffer) = some o ∧
        ∃ m ∈ [secondOffer, firstAck, firstAck], m.msgType = some dhcpMsgAck ∧
          m.serverId = o.serverId ∧ ip = m.yiaddr := by
  refine ⟨?hret, dhcp_lease_acked true noBinds dhcpBoot _ _ (by decide +kernel)
    (by decide +kernel) ?hret⟩
  decide +kernel

/-- An Ack before the Offer configures the address 0.0.0.0 and ends the second wait at once. An
Ack of another server for another address makes the device use the offered address, which no
Ack has. An Offer without an address is accepted. -/
theorem dhcp_lease_not_acked :
    let empty := serverMessage dhcpMsgOffer .zero ⟨10, 0, 2, 2⟩
    let early := dhcpDiscover true noBinds dhcpBoot [firstAck, firstOffer] []
    let other := dhcpDiscover true noBinds dhcpBoot [firstOffer] [secondAck]
    let blank := dhcpDiscover true noBinds dhcpBoot [empty] [firstAck]
    (early.2.2 = 0 ∧ early.2.1.devIp = .zero) ∧
      (other.2.2 = 0 ∧ other.2.1.devIp = ⟨10, 0, 2, 15⟩ ∧
        secondAck.yiaddr = ⟨10, 0, 2, 99⟩ ∧ secondAck.serverId ≠ firstOffer.serverId) ∧
      (blank.2.2 = 0 ∧ blank.2.1.devIp = .zero) := by
  decide +kernel

/-! ## Options -/

/-- The first option with the code in a list of options, as its length byte and the bytes behind
that. The walk passes over the padding and over the data of the other options, of which so many
bytes are still to come, and ends at the end option. -/
def firstOption (target : UInt8) : ℕ → List UInt8 → Option (UInt8 × List UInt8)
  | _, [] => none
  | skip + 1, _ :: rest => firstOption target skip rest
  | 0, [_] => none
  | 0, code :: len :: rest =>
    if code = dhcpOptEnd then none
    else if code = 0 then firstOption target 0 (len :: rest)
    else if code = target then some (len, rest)
    else firstOption target len.toNat rest

/-- The number of bytes that `dhcp_rx_callback` reads of an option. -/
def readWidth (target : UInt8) : ℕ := if target = dhcpOptMsgType then 1 else 4

variable {opts : Bytes} {n i fuel : ℕ} {target : UInt8}

theorem firstOption_eq_drop (target : UInt8) (skip : ℕ) (bytes : List UInt8) :
    firstOption target skip bytes = firstOption target 0 (bytes.drop skip) := by
  induction bytes generalizing skip with
  | nil => simp [firstOption]
  | cons b rest ih =>
    cases skip with
    | zero => rfl
    | succ skip => exact ih skip

/-- What is behind the length byte is the end of the options. -/
theorem firstOption_suffix {skip : ℕ} {bytes data : List UInt8} {len : UInt8}
    (h : firstOption target skip bytes = some (len, data)) : data <:+ bytes := by
  fun_induction firstOption target skip bytes with
  | case1 => simp at h
  | case2 _ _ _ ih => exact (ih h).trans (List.suffix_cons _ _)
  | case3 => simp at h
  | case4 => simp at h
  | case5 _ _ _ ih => exact (ih h).trans (List.suffix_cons _ _)
  | case6 =>
    obtain ⟨-, rfl⟩ := Prod.mk.inj (Option.some.inj h)
    exact (List.suffix_cons _ _).trans (List.suffix_cons _ _)
  | case7 _ _ _ _ _ _ ih =>
    exact ((ih h).trans (List.suffix_cons _ _)).trans (List.suffix_cons _ _)

theorem slice_eq_cons (h : i < n) :
    opts.slice i (n - i) = opts i :: opts.slice (i + 1) (n - (i + 1)) := by
  rw [show n - i = 1 + (n - (i + 1)) by omega, ← Bytes.slice_append]
  rfl

/-- While the 16-bit index cannot wrap, the loop of `dhcp_find_option` is the walk. -/
theorem findOptionFrom_eq (hn : n ≤ 65280) (hfuel : n - i < fuel) :
    findOptionFrom opts n target fuel i =
      (firstOption target 0 (opts.slice i (n - i))).map fun found => n - found.2.length := by
  induction fuel generalizing i with
  | zero => omega
  | succ fuel ih =>
    have hlen := (opts (i + 1)).toNat_lt
    rw [findOptionFrom]
    by_cases hi : i < n
    swap
    · rw [if_neg hi, Nat.sub_eq_zero_of_le (Nat.not_lt.mp hi)]
      rfl
    rw [if_pos hi, slice_eq_cons hi]
    by_cases hlast : i + 1 < n
    · rw [slice_eq_cons hlast, firstOption, if_neg (Nat.not_le.mpr hlast)]
      split_ifs
      · rfl
      · rw [Nat.mod_eq_of_lt (by omega), ih (by omega), slice_eq_cons hlast]
      · simp only [Option.map_some, Bytes.slice_length, Option.some.injEq]
        omega
      · rw [Nat.mod_eq_of_lt (by omega), ih (by omega),
          firstOption_eq_drop target (opts (i + 1)).toNat, Bytes.drop_slice, Nat.sub_sub]
    · -- the last byte of the options, which has no length byte
      rw [Nat.sub_eq_zero_of_le (Nat.not_lt.mp hlast), Bytes.slice_zero, firstOption,
        if_pos (Nat.not_lt.mp hlast)]
      split_ifs
      · rfl
      · rw [Nat.mod_eq_of_lt (by omega), ih (by omega), Nat.sub_eq_zero_of_le (by omega)]
        rfl
      · rfl

/-- For all the options that a datagram can carry, `dhcp_find_option` finds the code where the walk
finds it in an option inside the packet, and what `dhcp_rx_callback` reads lies inside that option
and the packet, if and only if the first option with the code has the length that is read and its
data inside the packet. -/
theorem dhcp_find_option_iff (opts : Bytes) (n : ℕ) (target : UInt8) (hn : n ≤ 65280) :
    (((dhcpFindOption opts n target).isSome ↔
        ∃ len data, firstOption target 0 (opts.slice 0 n) = some (len, data) ∧
          len.toNat ≤ data.length) ∧
      ∀ p, dhcpFindOption opts n target = some p →
        ∃ len, firstOption target 0 (opts.slice 0 n) = some (len, opts.slice p (n - p)) ∧
          readWidth target ≤ len.toNat ∧ p + len.toNat ≤ n) ↔
    ∀ len data, firstOption target 0 (opts.slice 0 n) = some (len, data) →
      readWidth target ≤ len.toNat ∧ len.toNat ≤ data.length := by
  have hfind : dhcpFindOption opts n target =
      (firstOption target 0 (opts.slice 0 n)).map fun found => n - found.2.length :=
    findOptionFrom_eq hn (by omega)
  rw [hfind]
  cases hfirst : firstOption target 0 (opts.slice 0 n) with
  | none => simp
  | some found =>
    obtain ⟨len, data⟩ := found
    have hsuffix := firstOption_suffix hfirst
    have hle : data.length ≤ n := by simpa using hsuffix.length_le
    have hdata : opts.slice (n - data.length) data.length = data := by
      conv_rhs => rw [List.suffix_iff_eq_drop.mp hsuffix, Bytes.slice_length, Bytes.drop_slice,
        Nat.zero_add, Nat.sub_sub_self hle]
    simp only [Option.map_some, Option.isSome_some, Option.some.injEq, Prod.mk.injEq, true_iff,
      forall_eq']
    constructor
    · rintro ⟨-, hread⟩ _ _ ⟨rfl, rfl⟩
      obtain ⟨_, ⟨rfl, -⟩, hwidth, hfits⟩ := hread
      exact ⟨hwidth, by omega⟩
    · intro hcond
      obtain ⟨hwidth, hfits⟩ := hcond len data ⟨rfl, rfl⟩
      refine ⟨⟨len, data, ⟨rfl, rfl⟩, hfits⟩, len, ⟨rfl, ?_⟩, hwidth, by omega⟩
      rw [Nat.sub_sub_self hle, hdata]

/-- A padding byte, an option of another code and the message type of an Ack. -/
theorem dhcp_find_option_ack :
    let opts : Bytes := fun k => [0, 12, 2, 53, 1, dhcpOptMsgType, 1, dhcpMsgAck, 255].getD k 0
    dhcpFindOption opts 9 dhcpOptMsgType = some 7 ∧
      ∃ len, firstOption dhcpOptMsgType 0 (opts.slice 0 9) = some (len, opts.slice 7 2) ∧
        readWidth dhcpOptMsgType ≤ len.toNat ∧ 7 + len.toNat ≤ 9 := by
  intro opts
  have hfound : dhcpFindOption opts 9 dhcpOptMsgType = some 7 := by decide
  have hfirst : firstOption dhcpOptMsgType 0 (opts.slice 0 9) = some (1, [dhcpMsgAck, 255]) := by
    decide
  have hcond : ∀ len data, firstOption dhcpOptMsgType 0 (opts.slice 0 9) = some (len, data) →
      readWidth dhcpOptMsgType ≤ len.toNat ∧ len.toNat ≤ data.length := by
    intro len data h
    obtain ⟨rfl, rfl⟩ := Prod.mk.inj (Option.some.inj (hfirst.symm.trans h))
    decide
  exact ⟨hfound, ((dhcp_find_option_iff opts 9 dhcpOptMsgType (by decide)).mpr hcond).2 7 hfound⟩

/-- A message type without data at the end of the packet is read behind the packet. -/
theorem dhcp_find_option_short :
    let opts : Bytes := fun k => [dhcpOptMsgType, 0].getD k 0
    dhcpFindOption opts 2 dhcpOptMsgType = some 2 ∧ readWidth dhcpOptMsgType = 1 ∧
      firstOption dhcpOptMsgType 0 (opts.slice 0 2) = some (0, []) := by
  decide

end Tomahawk.Net
