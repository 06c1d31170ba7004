import Tomahawk.Net.Stack

/-!
# Packet buffers are given back

Every call of the stack returns with the list of free buffers as it was. The functions follow one
another through the driver of the loopback device, where each level has taken a buffer, so the
number of free buffers bounds the depth. Where a message fits behind the headroom of 64 bytes, what
is used on the way is inside of the buffers: both are shown in one pass over the stack, the second
under a condition `c`.
-/

namespace Tomahawk.Net

open Tomahawk.Lib

/-- No buffer is twice in the list, and there are at most `n`. -/
structure Room (n : ℕ) (s : Stack) : Prop where
  nodup : s.free.Nodup
  length_le : s.free.length ≤ n

/-- The free buffers are the same, none was freed twice, and what was recorded still is. -/
structure Balanced (s s' : Stack) : Prop where
  free : s'.free = s.free
  freedTwice : s'.freedTwice = s.freedTwice
  spans : s.spans <:+ s'.spans

/-- Everything that was used since is inside. -/
def UsedInside (s s' : Stack) : Prop :=
  ∃ used, s'.spans = used ++ s.spans ∧ ∀ sp ∈ used, sp.Inside

/-- Buffers are given back, and if `c` they were not overrun. -/
structure Tidy (c : Prop) (s s' : Stack) : Prop extends Balanced s s' where
  inside : c → UsedInside s s'

variable {α : Type} {n m : ℕ} {c : Prop} {send : Device → Netbuf → Prog Stack ℤ}
  {f : Prog Stack α} {s s' : Stack} {nb : Netbuf} {dev : Device}
  {l payload field frame header p : List UInt8} {start : ℤ} {size i k len ethertype : ℕ}
  {g body : Netbuf → Prog Stack α} {failed : α} {dst dstIp src : Ipv4Addr}
  {srcPort dstPort dataLen id seq : UInt16} {data : Option Bytes} {ack : UInt32} {flags : UInt8}

/-- A change of other fields. -/
theorem Tidy.of_eq (hfree : s'.free = s.free) (htwice : s'.freedTwice = s.freedTwice)
    (hspans : s'.spans = s.spans) : Tidy c s s' :=
  ⟨⟨hfree, htwice, hspans ▸ List.suffix_rfl⟩, fun _ => ⟨[], hspans, by simp⟩⟩

instance : Std.Refl (Tidy c) := ⟨fun _ => .of_eq rfl rfl rfl⟩

instance : IsTrans Stack (Tidy c) := by
  refine ⟨fun s t u h h' => ⟨⟨h'.free.trans h.free, h'.freedTwice.trans h.freedTwice,
    h.spans.trans h'.spans⟩, fun hc => ?_⟩⟩
  obtain ⟨used, hspans, hin⟩ := h.inside hc
  obtain ⟨used', hspans', hin'⟩ := h'.inside hc
  refine ⟨used' ++ used, by rw [hspans', hspans, List.append_assoc], fun sp hsp => ?_⟩
  exact (List.mem_append.mp hsp).elim (hin' sp) (hin sp)

theorem Balanced.room (hs : Room n s) (h : Balanced s s') : Room n s' :=
  ⟨h.free ▸ hs.nodup, h.free ▸ hs.length_le⟩

/-- With at most `n` free buffers the program returns and is tidy. -/
abbrev Tidies (n : ℕ) (c : Prop) (f : Prog Stack α) : Prop := Ensures (Room n) (Tidy c) f

theorem Tidies.bind {β : Type} {g : α → Prog Stack β} (hf : Tidies n c f)
    (hg : ∀ a, Tidies n c (g a)) : Tidies n c (f >>= g) :=
  Ensures.bind (fun _ _ hs h => h.toBalanced.room hs) hf hg

theorem Tidies.mono (hf : Tidies n c f) (h : m ≤ n) : Tidies m c f :=
  Ensures.mono hf fun _ hs => ⟨hs.nodup, hs.length_le.trans h⟩

theorem Tidies.discard (hf : Tidies n c f) : Tidies n c (do let _ ← f; pure ()) :=
  hf.bind fun _ => Ensures.pure ()

/-! ## Packet buffers -/

/-- The room behind the headroom. -/
def maxMessage : ℕ := netbufMaxSize - netbufHeadroom

/-- A buffer is inside of its memory. -/
def Netbuf.Inside (nb : Netbuf) : Prop := (⟨nb.data, nb.bytes.length⟩ : Span).Inside

/-- A buffer is inside of its memory, with room for headers in front. -/
def Netbuf.Behind (nb : Netbuf) (k : ℕ) : Prop :=
  k ≤ nb.data ∧ nb.data + nb.bytes.length ≤ 2048

theorem cut16_eq (h : l.length < 65536) : cut16 l = l := by
  rw [cut16, Nat.mod_eq_of_lt h, List.take_length]

theorem length_cut16_le (l : List UInt8) : (cut16 l).length ≤ l.length :=
  List.length_take_le' _ _

@[simp] theorem length_storeAt (l field : List UInt8) (k : ℕ) :
    (storeAt l k field).length = l.length := by
  induction field generalizing l k with
  | nil => rfl
  | cons b bs ih => rw [storeAt, ih, List.length_set]

/-- A byte in front of what is stored. -/
theorem byteAt_storeAt {j : ℕ} (h : j < k) : byteAt (storeAt l k field) j = byteAt l j := by
  induction field generalizing l k with
  | nil => rfl
  | cons b bs ih =>
    rw [storeAt, ih (by omega), byteAt, byteAt, List.getD_eq_getElem?_getD,
      List.getElem?_set_ne (by omega), ← List.getD_eq_getElem?_getD]

/-- A message behind the headroom. -/
theorem behind_headroom (hl : l.length ≤ 1984) (hk : k ≤ 64) :
    (⟨i, 64, cut16 l⟩ : Netbuf).Behind k := by
  have hcut := length_cut16_le l
  exact ⟨by simp only; omega, by simp only; omega⟩

theorem Netbuf.Behind.inside (h : nb.Behind k) : nb.Inside := by
  obtain ⟨hroom, hend⟩ := h
  exact ⟨by simp only; omega, by simpa [netbufMaxSize] using hend⟩

theorem Netbuf.Behind.push (h : nb.Behind (k + header.length)) :
    (⟨nb.idx, nb.data - header.length, cut16 (header ++ nb.bytes)⟩ : Netbuf).Behind k := by
  obtain ⟨hroom, hend⟩ := h
  have hcut := length_cut16_le (header ++ nb.bytes)
  rw [List.length_append] at hcut
  exact ⟨by simp only; omega, by simp only; omega⟩

theorem Netbuf.Behind.store (h : nb.Behind k) (j : ℕ) (field : List UInt8) :
    (⟨nb.idx, nb.data, storeAt nb.bytes j field⟩ : Netbuf).Behind k :=
  ⟨h.1, by simpa using h.2⟩

theorem Netbuf.Inside.drop (hnb : nb.Inside) (hk : k ≤ nb.bytes.length) :
    (⟨nb.idx, nb.data + k, nb.bytes.drop k⟩ : Netbuf).Inside := by
  obtain ⟨hstart, hend⟩ := hnb
  simp only [Netbuf.Inside, Span.Inside, List.length_drop] at hstart hend ⊢
  omega

theorem Netbuf.Inside.take (hnb : nb.Inside) (k : ℕ) :
    (⟨nb.idx, nb.data, nb.bytes.take k⟩ : Netbuf).Inside := by
  obtain ⟨hstart, hend⟩ := hnb
  have hle := List.length_take_le' k nb.bytes
  simp only [Netbuf.Inside, Span.Inside] at hstart hend ⊢
  omega

/-- The state after bytes of a buffer were used. -/
def Stack.used (s : Stack) (start : ℤ) (size : ℕ) : Stack :=
  { s with spans := ⟨start, size⟩ :: s.spans }

theorem use_bind (next : Prog Stack α) :
    (use start size >>= fun _ => next) s = next (s.used start size) := rfl

theorem tidies_use_bind {next : Prog Stack α} (hin : c → (⟨start, size⟩ : Span).Inside)
    (hnext : Tidies n c next) : Tidies n c (use start size >>= fun _ => next) := by
  refine Tidies.bind (Ensures.modify fun s => ⟨⟨rfl, rfl, List.suffix_cons _ _⟩, fun hc => ?_⟩)
    fun _ => hnext
  exact ⟨[⟨start, size⟩], rfl, by simpa using hin hc⟩

/-- The headroom of a new buffer. -/
theorem tidies_reserve_bind (hg : Tidies n c (g ⟨i, 64, []⟩)) :
    Tidies n c (netbufReserve ⟨i, 0, []⟩ netbufHeadroom >>= g) := by
  simp only [netbufReserve, Netbuf.mark, bind_assoc, pure_bind]
  exact tidies_use_bind (fun _ => by decide) hg

/-- A header in the space in front of a message. -/
theorem tidies_push_bind (hnb : c → nb.Behind header.length)
    (hg : Tidies n c (g ⟨nb.idx, nb.data - header.length, cut16 (header ++ nb.bytes)⟩)) :
    Tidies n c (netbufPush nb header >>= g) := by
  refine tidies_use_bind (fun hc => ?_) (tidies_use_bind (fun hc => ?_) hg)
  · refine Netbuf.Behind.inside (Netbuf.Behind.push (k := 0) ?_)
    simpa using hnb hc
  · obtain ⟨hroom, hend⟩ := hnb hc
    simp only [Span.Inside, netbufMaxSize]
    omega

section

variable (hroom : c → (⟨nb.data, nb.bytes.length + payload.length⟩ : Span).Inside)
include hroom

/-- A message behind what is there. -/
theorem tidies_put_bind (hg : Tidies n c (g ⟨nb.idx, nb.data, cut16 (nb.bytes ++ payload)⟩)) :
    Tidies n c (netbufPut nb payload >>= g) := by
  have hcut := length_cut16_le (nb.bytes ++ payload)
  rw [List.length_append] at hcut
  refine tidies_use_bind (fun hc => ?_) (tidies_use_bind (fun hc => ?_) hg) <;>
  · obtain ⟨hstart, hend⟩ := hroom hc
    simp only [Span.Inside, netbufMaxSize] at hstart hend ⊢
    omega

theorem tidies_append_bind (hbytes : nb.bytes.length < 65536)
    (hg : Tidies n c (g ⟨nb.idx, nb.data, cut16 (nb.bytes ++ payload)⟩)) :
    Tidies n c (netbufAppend nb payload >>= g) := by
  rw [netbufAppend]
  split
  · next hnil =>
    subst hnil
    rw [List.append_nil, cut16_eq hbytes] at hg
    exact hg
  · exact tidies_put_bind hroom hg

end

theorem tidies_store_bind (hin : c → (⟨nb.data + k, field.length⟩ : Span).Inside)
    (hg : Tidies n c (g ⟨nb.idx, nb.data, storeAt nb.bytes k field⟩)) :
    Tidies n c (netbufStore nb k field >>= g) := by
  exact tidies_use_bind hin hg

theorem tidies_pull_bind (hnb : c → nb.Inside) (hk : k ≤ nb.bytes.length)
    (hg : Tidies n c (g ⟨nb.idx, nb.data + k, nb.bytes.drop k⟩)) :
    Tidies n c (netbufPull nb k >>= g) := by
  simp only [netbufPull, Netbuf.mark, Nat.min_eq_left hk, bind_assoc, pure_bind]
  exact tidies_use_bind (fun hc => (hnb hc).drop hk) hg

theorem tidies_trim_bind (hnb : c → nb.Inside)
    (hg : Tidies n c (g ⟨nb.idx, nb.data, nb.bytes.take k⟩)) :
    Tidies n c (netbufTrim nb k >>= g) := by
  exact tidies_use_bind (fun hc => (hnb hc).take k) hg

theorem tidies_setArpCache (u : List ArpEntry → List ArpEntry) : Tidies n c (setArpCache u) :=
  Ensures.modify fun _ => .of_eq rfl rfl rfl

theorem tidies_setConn (u : TcpConn → TcpConn) : Tidies n c (setConn u) :=
  Ensures.modify fun _ => .of_eq rfl rfl rfl

theorem tidies_takeIpId : Tidies n c takeIpId := fun _ _ => ⟨_, rfl, .of_eq rfl rfl rfl⟩

/-- A buffer that is allocated is not in the list until it is freed. Without free buffers nothing
is made. -/
theorem tidies_withNetbuf (hbody : ∀ m i, n = m + 1 → Tidies m c (body ⟨i, 0, []⟩)) :
    Tidies n c (withNetbuf failed body) := by
  intro s hs
  cases hfree : s.free with
  | nil =>
    refine ⟨(failed, s), ?_, Std.Refl.refl s⟩
    exact Prog.bind_eq_some.mpr ⟨(none, s), by rw [netbufAlloc, hfree], rfl⟩
  | cons i rest =>
    obtain ⟨hnodup, hlen⟩ := hs
    rw [hfree] at hnodup hlen
    rw [List.length_cons] at hlen
    obtain ⟨hi, hrest⟩ := List.nodup_cons.mp hnodup
    obtain ⟨r, hr, hbal⟩ := hbody (n - 1) i (by omega) { s with free := rest }
      ⟨hrest, by simp only; omega⟩
    have hback : r.2.free = rest := hbal.free
    have hout : decide (i ∈ r.2.free) = false := decide_eq_false (hback ▸ hi)
    refine ⟨(r.1, _), Prog.bind_eq_some.mpr ⟨(some ⟨i, 0, []⟩, { s with free := rest }), ?_,
      Prog.bind_eq_some.mpr ⟨r, hr, rfl⟩⟩, ⟨?_, ?_, hbal.spans⟩, hbal.inside⟩
    · rw [netbufAlloc, hfree]
    · exact (congrArg (i :: ·) hback).trans hfree.symm
    · exact (congrArg (r.2.freedTwice || ·) hout).trans
        ((Bool.or_false _).trans hbal.freedTwice)

/-- A message is made only if there is a buffer for it. -/
theorem tidies_message (hbody : n ≠ 0 → ∀ i, Tidies n c (body ⟨i, 0, []⟩)) :
    Tidies n c (withNetbuf failed body) :=
  tidies_withNetbuf fun _ i hm => (hbody (by omega) i).mono (by omega)

/-! ## Frames -/

/-- What a packet carries. -/
def Ipv4Info.message (info : Ipv4Info) (packet : List UInt8) : List UInt8 :=
  (packet.drop info.ihl).take info.payloadLen

/-- The length of the echo request in a frame that a device answers. -/
def echoLength (dev : Device) (frame : List UInt8) : Option ℕ :=
  if parseEthernet dev.mac frame = some ethertypeIpv4 then
    (parseIpv4 dev.ip (frame.drop 14)).bind fun info =>
      let message := info.message (frame.drop 14)
      if info.protocol = ipProtoIcmp ∧ isEchoRequest message = true then some message.length
      else none
  else none

/-- The answer to a frame fits in a buffer. -/
def EchoFits (dev : Device) (frame : List UInt8) : Prop :=
  ∀ len ∈ echoLength dev frame, len ≤ maxMessage

instance (dev : Device) (frame : List UInt8) : Decidable (EchoFits dev frame) :=
  inferInstanceAs (Decidable (∀ _ ∈ _, _))

theorem mem_echoLength :
    len ∈ echoLength dev frame ↔ parseEthernet dev.mac frame = some ethertypeIpv4 ∧
      ∃ info, parseIpv4 dev.ip (frame.drop 14) = some info ∧ info.protocol = ipProtoIcmp ∧
        isEchoRequest (info.message (frame.drop 14)) = true ∧
        (info.message (frame.drop 14)).length = len := by
  rw [Option.mem_def, echoLength]
  split
  · next htype =>
    simp only [htype, true_and, Option.bind_eq_some_iff, Option.ite_none_right_eq_some,
      Option.some.injEq, and_assoc]
  · next htype => simp [htype]

theorem parseEthernet_spec {mac : MacAddr} (h : parseEthernet mac frame = some ethertype) :
    14 ≤ frame.length ∧ be16At frame 12 = ethertype := by
  rw [parseEthernet] at h
  split_ifs at h with hlen hmac
  exact ⟨Nat.le_of_not_lt hlen, Option.some.inj h⟩

theorem parseIpv4_spec {ip : Ipv4Addr} {info : Ipv4Info} (h : parseIpv4 ip p = some info) :
    info.protocol = byteAt p 9 ∧ 20 ≤ info.ihl ∧ info.ihl ≤ p.length := by
  rw [parseIpv4] at h
  split_ifs at h with hlen hversion hihl hsum hdst
  cases h
  rw [not_or] at hihl
  exact ⟨rfl, by simp only; omega, by simp only; omega⟩

theorem be16At_arpFrame (dst src : MacAddr) (p : List UInt8) :
    be16At (ethHeader dst src ethertypeArp ++ p) 12 = ethertypeArp := by
  have hhigh : byteAt (ethHeader dst src ethertypeArp ++ p) 12 = 8 := rfl
  have hlow : byteAt (ethHeader dst src ethertypeArp ++ p) (12 + 1) = 6 := rfl
  rw [be16At, hhigh, hlow]
  rfl

/-- An ARP message is no echo request. -/
theorem echoFits_arp (dst src : MacAddr) (p : List UInt8) :
    EchoFits dev (ethHeader dst src ethertypeArp ++ p) := by
  intro len hlen
  have htype := (parseEthernet_spec (mem_echoLength.mp hlen).1).2
  rw [be16At_arpFrame] at htype
  exact absurd htype (by decide)

/-- A packet with another protocol is no echo request, and a short one holds none that is too
long. -/
theorem echoFits_ipv4 (dst src : MacAddr)
    (h : byteAt p 9 ≠ ipProtoIcmp ∨ p.length ≤ maxMessage + 20) :
    EchoFits dev (ethHeader dst src ethertypeIpv4 ++ p) := by
  intro len hlen
  have hdrop : (ethHeader dst src ethertypeIpv4 ++ p).drop 14 = p := rfl
  obtain ⟨-, info, hinfo, hicmp, -, rfl⟩ := mem_echoLength.mp hlen
  rw [hdrop] at hinfo ⊢
  obtain ⟨hprotocol, hihl, hle⟩ := parseIpv4_spec hinfo
  have hshort := h.resolve_left fun hne => hne (hprotocol ▸ hicmp)
  have hmessage : (info.message p).length ≤ p.length - info.ihl := by
    rw [Ipv4Info.message, List.length_take, List.length_drop]
    exact Nat.min_le_right _ _
  omega

/-! ## The functions of the stack -/

/-- A driver that is given frames inside of their buffers uses nothing outside. -/
def SendTidy (n : ℕ) (c : Prop) (send : Device → Netbuf → Prog Stack ℤ) : Prop :=
  ∀ (dev : Device) (nb : Netbuf), (c → nb.Inside) → (c → EchoFits dev nb.bytes) →
    Tidies n c (send dev nb)

section Paths

variable (hsend : SendTidy n c send)

include hsend

theorem tidies_ethernetSendFrame {dst : MacAddr} (hnb : c → nb.Behind 14)
    (hecho : c → EchoFits dev (ethHeader dst dev.mac ethertype ++ nb.bytes)) :
    Tidies n c (ethernetSendFrame send dev nb dst ethertype) := by
  rw [ethernetSendFrame]
  split
  · exact Ensures.pure _
  · refine tidies_push_bind hnb (hsend dev _ (fun hc => ?_) fun hc => ?_)
    · exact Netbuf.Behind.inside (Netbuf.Behind.push (k := 0) (hnb hc))
    · obtain ⟨hroom, hend⟩ := hnb hc
      rw [cut16_eq (by rw [List.length_append, length_ethHeader]; omega)]
      exact hecho hc

/-- An ARP message is sent. -/
theorem tidies_arpMessage {oper : ℕ} {senderMac targetMac dst : MacAddr}
    {senderIp targetIp : Ipv4Addr} (u : List ArpEntry → List ArpEntry) : Tidies n c (do
      let nb ← netbufReserve ⟨i, 0, []⟩ netbufHeadroom
      let nb ← netbufPut nb (arpHeader oper senderMac senderIp targetMac targetIp)
      setArpCache u
      ethernetSendFrame send dev nb dst ethertypeArp) := by
  refine tidies_reserve_bind (tidies_put_bind (fun _ => ?_) ?_)
  · simp [Span.Inside, netbufMaxSize]
  · refine (tidies_setArpCache u).bind fun _ => ?_
    exact tidies_ethernetSendFrame hsend (fun _ => behind_headroom (by simp) (by omega))
      fun _ => echoFits_arp _ _ _

theorem tidies_arpSendRequest (ip : Ipv4Addr) : Tidies n c (arpSendRequest send dev ip) :=
  tidies_message fun _ _ => tidies_arpMessage hsend _

theorem tidies_arpResolve (ip : Ipv4Addr) : Tidies n c (arpResolve send dev ip) := by
  refine Tidies.bind Ensures.get fun s => ?_
  split
  · exact Ensures.pure _
  · exact (tidies_arpSendRequest hsend ip).bind fun _ => Ensures.pure _

/-- A message with room for the headers in front of it, which is no ICMP message or has the whole
headroom, so that an answer fits. -/
theorem tidies_ipv4Send {protocol : UInt8} (hnb : c → nb.Behind 34)
    (hecho : c → protocol ≠ ipProtoIcmp ∨ 64 ≤ nb.data) :
    Tidies n c (ipv4Send send dev nb dst protocol) := by
  refine tidies_takeIpId.bind fun id => ?_
  generalize hheader : ipv4Header (20 + nb.bytes.length) id protocol dev.ip dst = header
  have hlen : header.length = 20 := hheader ▸ length_ipv4Header _ _ _ _ _
  have hpushed : c → nb.Behind (14 + header.length) := hlen ▸ hnb
  refine tidies_push_bind (fun hc => ⟨?_, (hnb hc).2⟩) (tidies_store_bind (fun hc => ?_) ?_)
  · have := (hnb hc).1
    omega
  · obtain ⟨hroom, hend⟩ := hnb hc
    simp only [Span.Inside, length_le16, netbufMaxSize]
    omega
  generalize hbytes : storeAt (cut16 (header ++ nb.bytes)) 10 (le16 (netChecksum header 0)) = bytes
  have hin : c → (⟨nb.idx, nb.data - header.length, bytes⟩ : Netbuf).Behind 14 :=
    fun hc => hbytes ▸ (hpushed hc).push.store 10 _
  have hframe : c → ∀ mac, EchoFits dev (ethHeader mac dev.mac ethertypeIpv4 ++ bytes) := by
    intro hc mac
    obtain ⟨hroom, hend⟩ := hnb hc
    have happend : (header ++ nb.bytes).length = 20 + nb.bytes.length := by
      rw [List.length_append, hlen]
    rw [cut16_eq (by omega)] at hbytes
    -- The checksum is stored behind the protocol.
    have hkept : byteAt bytes 9 = protocol := by
      rw [← hbytes, byteAt_storeAt (by omega), ← hheader]
      rfl
    have hlength : bytes.length = 20 + nb.bytes.length := by rw [← hbytes, length_storeAt, happend]
    have hmax : maxMessage = 1984 := rfl
    exact echoFits_ipv4 _ _ ((hecho hc).imp (fun h => hkept ▸ h) fun h => by omega)
  split
  · exact tidies_ethernetSendFrame hsend hin fun hc => hframe hc _
  · refine (tidies_arpResolve hsend _).bind fun mac => ?_
    split
    · exact Ensures.pure _
    · exact tidies_ethernetSendFrame hsend hin fun hc => hframe hc _

/-- A payload behind the headroom, a header of another protocol than ICMP in front of it, and the
checksum in the header. -/
theorem tidies_segment {protocol : UInt8} {sum : Netbuf → ℕ} (hother : protocol ≠ ipProtoIcmp)
    (hheader : header.length ≤ 30) (hk : k + 2 ≤ 30)
    (hfits : n ≠ 0 → c → payload.length ≤ maxMessage) (hn : n ≠ 0) : Tidies n c (do
      let nb ← netbufReserve ⟨i, 0, []⟩ netbufHeadroom
      let nb ← netbufAppend nb payload
      let nb ← netbufPush nb header
      let nb ← netbufStore nb k (le16 (sum nb))
      ipv4Send send dev nb dst protocol) := by
  have hshort : c → payload.length ≤ 1984 := hfits hn
  have hmessage : c → (⟨i, 64, cut16 ([] ++ payload)⟩ : Netbuf).Behind (34 + header.length) :=
    fun hc => behind_headroom (hshort hc) (by omega)
  refine tidies_reserve_bind (tidies_append_bind (fun hc => ?_) (by simp) ?_)
  · have := hshort hc
    simp only [Span.Inside, List.length_nil, netbufMaxSize]
    omega
  refine tidies_push_bind (fun hc => ⟨?_, (hmessage hc).2⟩) (tidies_store_bind (fun _ => ?_) ?_)
  · simp only
    omega
  · simp only [Span.Inside, length_le16, netbufMaxSize]
    omega
  · exact tidies_ipv4Send hsend (fun hc => (hmessage hc).push.store k _) fun _ => .inl hother

theorem tidies_udpSend (hfits : n ≠ 0 → c → (payloadOf data dataLen).length ≤ maxMessage) :
    Tidies n c (udpSend send dev dstIp srcPort dstPort data dataLen) :=
  tidies_message fun hn _ =>
    tidies_segment hsend (by decide) (by simp) (by simp) hfits hn

theorem tidies_tcpSendSegment {seq : UInt32} (hfits : n ≠ 0 → c → payload.length ≤ maxMessage) :
    Tidies n c (tcpSendSegment send seq ack flags payload) :=
  tidies_message fun hn _ => Tidies.bind Ensures.get fun _ =>
    tidies_segment hsend (by decide) (by simp) (by simp) hfits hn

theorem tidies_icmpSendEchoRequest
    (hfits : n ≠ 0 → c → (payloadOf data dataLen).length + 8 ≤ maxMessage) :
    Tidies n c (icmpSendEchoRequest send dev dst id seq data dataLen) := by
  refine tidies_message fun hn i => ?_
  have hshort : c → 8 + (payloadOf data dataLen).length ≤ 1984 :=
    fun hc => (Nat.add_comm _ _).trans_le (hfits hn hc)
  have hheader : (cut16 ([] ++ icmpHeader id seq)).length = 8 := rfl
  have hlength : (cut16 ([] ++ icmpHeader id seq) ++ payloadOf data dataLen).length =
      8 + (payloadOf data dataLen).length := by rw [List.length_append, hheader]
  have hfield : (⟨66, 2⟩ : Span).Inside := by decide
  refine tidies_reserve_bind (tidies_put_bind (fun _ => (by decide : (⟨64, 8⟩ : Span).Inside))
    (tidies_append_bind (fun hc => ?_) (hheader.trans_lt (by decide))
      (tidies_store_bind (fun _ => hfield) ?_)))
  · have := hshort hc
    simp only [Span.Inside, hheader, netbufMaxSize]
    omega
  · refine tidies_ipv4Send hsend (fun hc => ?_) fun _ => .inr le_rfl
    exact (behind_headroom (hlength.trans_le (hshort hc)) (by omega)).store 2 _

theorem tidies_tcpSendFlags (flags : UInt8) : Tidies n c (tcpSendFlags send flags) :=
  Tidies.bind Ensures.get fun _ => tidies_tcpSendSegment hsend fun _ _ => Nat.zero_le _

theorem tidies_tcpWriteBytes {data : List UInt8} (hfits : n ≠ 0 → c → data.length ≤ maxMessage) :
    Tidies n c (tcpWriteBytes send data) := by
  refine Tidies.bind Ensures.get fun s => ?_
  split
  · exact Ensures.pure _
  split
  · exact Ensures.pure _
  refine (tidies_tcpSendSegment hsend hfits).bind fun rc => ?_
  split
  · exact (tidies_setConn _).bind fun _ => Ensures.pure _
  · exact Ensures.pure _

theorem tidies_arpReceive : Tidies n c (arpReceive send dev nb) := by
  rw [arpReceive]
  split
  · exact Ensures.pure _
  split
  · exact Ensures.pure _
  refine (tidies_setArpCache _).bind fun _ => ?_
  split
  · refine tidies_message fun _ i => ?_
    exact (tidies_arpMessage hsend (i := i) id).discard
  · exact Ensures.pure _

/-- The answer to an echo request is as long as the request. -/
theorem tidies_icmpReceive
    (hfits : n ≠ 0 → c → isEchoRequest nb.bytes = true → nb.bytes.length ≤ maxMessage) :
    Tidies n c (icmpReceive send dev nb src) := by
  rw [icmpReceive]
  split
  · next hecho =>
    refine tidies_message fun hn i => ?_
    have hshort : c → nb.bytes.length ≤ 1984 := fun hc => hfits hn hc hecho
    have htype : (⟨64, 4⟩ : Span).Inside := by decide
    have hsum : (⟨66, 2⟩ : Span).Inside := by decide
    refine tidies_reserve_bind (tidies_put_bind (fun hc => ?_) (tidies_store_bind
      (fun _ => htype) (tidies_store_bind (fun _ => hsum) (Tidies.discard ?_))))
    · have := hshort hc
      simp only [Span.Inside, List.length_nil, netbufMaxSize]
      omega
    · refine tidies_ipv4Send hsend (fun hc => ?_) fun _ => .inr le_rfl
      exact ((behind_headroom (hshort hc) (by omega)).store 0 _).store 2 _
  · exact Ensures.pure _

omit hsend in
theorem tidies_udpDeliver : Tidies n c (udpDeliver nb src) := by
  refine Ensures.modify fun s => ?_
  split
  · exact Std.Refl.refl s
  · exact .of_eq rfl rfl rfl

theorem tidies_tcpSynAck (h : TcpHeader) : Tidies n c (tcpSynAck send h) := by
  refine Tidies.bind Ensures.get fun s => ?_
  split
  · refine (tidies_setConn _).bind fun _ => (tidies_tcpSendFlags hsend _).bind fun _ => ?_
    exact tidies_setConn _
  · exact Ensures.pure _

theorem tidies_tcpStore (h : TcpHeader) (payload : List UInt8) :
    Tidies n c (tcpStore send h payload) := by
  refine Tidies.bind Ensures.get fun s => ?_
  split
  · exact (tidies_setConn _).bind fun _ => (tidies_tcpSendFlags hsend _).discard
  · exact Ensures.pure _

theorem tidies_tcpFin (h : TcpHeader) : Tidies n c (tcpFin send h) := by
  rw [tcpFin]
  split
  · refine (tidies_setConn _).bind fun _ => (tidies_tcpSendFlags hsend _).bind fun _ => ?_
    exact tidies_setConn _
  · exact Ensures.pure _

theorem tidies_tcpInput : Tidies n c (tcpInput send nb) := by
  refine Tidies.bind Ensures.get fun s => ?_
  split
  · exact Ensures.pure _
  split
  · exact Ensures.pure _
  split
  · exact Ensures.pure _
  split
  · exact tidies_setConn _
  split
  · exact tidies_tcpSynAck hsend _
  split
  · exact (tidies_tcpStore hsend _ _).bind fun _ => tidies_tcpFin hsend _
  · exact Ensures.pure _

theorem tidies_ipv4Receive (hnb : c → nb.Inside)
    (hfits : n ≠ 0 → c → ∀ info, parseIpv4 dev.ip nb.bytes = some info →
      info.protocol = ipProtoIcmp → isEchoRequest (info.message nb.bytes) = true →
      (info.message nb.bytes).length ≤ maxMessage) :
    Tidies n c (ipv4Receive send dev nb) := by
  rw [ipv4Receive]
  split
  · exact Ensures.pure _
  next info hinfo =>
  have hihl := (parseIpv4_spec hinfo).2.2
  refine tidies_pull_bind hnb hihl (tidies_trim_bind (fun hc => (hnb hc).drop hihl) ?_)
  split
  · next hicmp => exact tidies_icmpReceive hsend fun hn hc => hfits hn hc info hinfo hicmp
  split
  · exact tidies_udpDeliver
  split
  · exact tidies_tcpInput hsend
  · exact Ensures.pure _

/-- A frame, where the answer to an echo request in it fits or there is no buffer for one. -/
theorem tidies_ethernetReceive (hnb : c → nb.Inside)
    (hecho : n ≠ 0 → c → EchoFits dev nb.bytes) : Tidies n c (ethernetReceive send dev nb) := by
  rw [ethernetReceive]
  split
  · exact Ensures.pure _
  next ethertype htype =>
  have hlen := (parseEthernet_spec htype).1
  refine tidies_pull_bind hnb hlen ?_
  split
  · exact tidies_arpReceive hsend
  split
  · next hipv4 =>
    refine tidies_ipv4Receive hsend (fun hc => (hnb hc).drop hlen) fun hn hc info hinfo hp hq => ?_
    exact hecho hn hc _ (mem_echoLength.mpr ⟨hipv4 ▸ htype, info, hinfo, hp, hq, rfl⟩)
  · exact Ensures.pure _

end Paths

/-! ## The drivers -/

/-- A frame is copied to the start of a buffer. -/
theorem tidies_loSend {receive : Netbuf → Prog Stack Unit} (hnb : c → nb.Inside)
    (hreceive : ∀ m i, n = m + 1 → Tidies m c (receive ⟨i, 0, cut16 nb.bytes⟩)) :
    Tidies n c (loSend receive nb) := by
  rw [loSend]
  split
  · exact Ensures.pure _
  · refine tidies_withNetbuf fun m i hm => tidies_put_bind (fun hc => ?_) ?_
    · obtain ⟨hstart, hend⟩ := hnb hc
      simp only [Span.Inside, List.length_nil] at hstart hend ⊢
      omega
    · exact (hreceive m i hm).bind fun _ => Ensures.pure _

theorem tidies_nicSend : Tidies n c nicSend := fun _ _ => ⟨_, rfl, .of_eq rfl rfl rfl⟩

/-- Frames loop back no deeper than there are free buffers. -/
theorem sendTidy_driverSend (depth : ℕ) (c : Prop) : SendTidy depth c (driverSend depth) := by
  induction depth with
  | zero =>
    intro dev nb hnb hecho
    rw [driverSend, sendVia]
    split
    · exact Ensures.pure _
    · exact tidies_nicSend
    · exact tidies_loSend hnb fun m i hm => absurd hm (by omega)
  | succ depth ih =>
    intro dev nb hnb hecho
    rw [driverSend, sendVia]
    split
    · exact Ensures.pure _
    · exact tidies_nicSend
    · refine tidies_loSend hnb fun m i hm => ?_
      obtain rfl : depth = m := by omega
      have hcut : c → cut16 nb.bytes = nb.bytes := by
        intro hc
        obtain ⟨hstart, hend⟩ := hnb hc
        simp only [netbufMaxSize] at hstart hend
        exact cut16_eq (by omega)
      refine tidies_ethernetReceive ih (fun hc => ?_) fun _ hc => by rw [hcut hc]; exact hecho hc
      obtain ⟨hstart, hend⟩ := hnb hc
      rw [hcut hc]
      exact ⟨le_rfl, by simp only at hstart hend ⊢; omega⟩

/-! ## Calls -/

/-- The message that a call makes first fits in a buffer, or there is none to put it in. -/
def NetCall.Fits (s : Stack) : NetCall → Prop
  | .udpSend _ _ _ _ data dataLen => s.free = [] ∨ (payloadOf data dataLen).length ≤ maxMessage
  | .icmpSendEchoRequest _ _ _ _ data dataLen =>
    s.free = [] ∨ (payloadOf data dataLen).length + 8 ≤ maxMessage
  | .tcpSendSegment _ _ _ data dataLen =>
    s.free = [] ∨ (payloadOf data dataLen).length ≤ maxMessage
  | .tcpWrite data dataLen =>
    s.tcp.conn.state ≠ .established ∨ s.free = [] ∨ (payloadOf data dataLen).length ≤ maxMessage
  | .arpSendRequest _ _ => True
  | .ethernetReceive dev nb => s.free = [] ∨ EchoFits dev nb.bytes

/-- The frame that is handed to a call is inside of its buffer. -/
def NetCall.FrameInside : NetCall → Prop
  | .ethernetReceive _ nb => nb.Inside
  | _ => True

/-- Every call returns and gives its buffers back, and if its message fits, uses nothing
outside. -/
theorem tidy_run {depth : ℕ} {call : NetCall} (hs : Room depth s) (hframe : c → call.FrameInside)
    (hfits : c → call.Fits s) : ∃ r, call.run depth s = some r ∧ Tidy c s r.2 := by
  have hroom : Room s.free.length s := ⟨hs.nodup, le_rfl⟩
  have hsend : SendTidy s.free.length c (driverSend depth) := fun dev nb hnb hecho =>
    (sendTidy_driverSend depth c dev nb hnb hecho).mono hs.length_le
  -- Where there is a buffer, the message fits.
  have hsome {P : Prop} (h : c → s.free = [] ∨ P) : s.free.length ≠ 0 → c → P :=
    fun hn hc => (h hc).resolve_left fun hnil => hn (List.length_eq_zero_iff.mpr hnil)
  cases call with
  | udpSend => exact (tidies_udpSend hsend (hsome hfits)).discard s hroom
  | icmpSendEchoRequest => exact (tidies_icmpSendEchoRequest hsend (hsome hfits)).discard s hroom
  | tcpSendSegment => exact (tidies_tcpSendSegment hsend (hsome hfits)).discard s hroom
  | tcpWrite data dataLen =>
    by_cases hstate : s.tcp.conn.state = .established
    · exact (tidies_tcpWriteBytes hsend
        (hsome fun hc => (hfits hc).resolve_left (not_not.mpr hstate))).discard s hroom
    · refine ⟨((), s), Prog.bind_eq_some.mpr ⟨(-1, s), ?_, rfl⟩, Std.Refl.refl s⟩
      exact Prog.bind_eq_some.mpr ⟨(s, s), rfl, by rw [if_pos hstate]; rfl⟩
  | arpSendRequest => exact (tidies_arpSendRequest hsend _).discard s hroom
  | ethernetReceive dev nb => exact tidies_ethernetReceive hsend hframe (hsome hfits) s hroom

/-- Every call of the stack returns, with the free buffers as they were, and frees no buffer that
is free. -/
theorem netbufs_conserved {s : Stack} (hfree : s.free.Nodup) (hunused : s.freedTwice = false)
    (call : NetCall) {depth : ℕ} (hdepth : s.free.length ≤ depth) :
    ∃ s', call.run depth s = some ((), s') ∧ s'.free = s.free ∧ s'.freedTwice = false := by
  obtain ⟨r, hr, hbal⟩ := tidy_run ⟨hfree, hdepth⟩ False.elim False.elim
  exact ⟨r.2, hr, hbal.free, hbal.freedTwice.trans hunused⟩

/-- A `ping` to the loopback device takes four buffers one inside the other. -/
theorem netbufs_conserved_ping :
    netInit.free.Nodup ∧ ∃ s',
      (NetCall.icmpSendEchoRequest loDevice ⟨127, 0, 0, 1⟩ 1 1 (some fun _ => 0) 56).run 64
        netInit = some ((), s') ∧ s'.free = netInit.free ∧ s'.freedTwice = false :=
  ⟨List.nodup_range, netbufs_conserved List.nodup_range rfl _ (by decide)⟩

end Tomahawk.Net
