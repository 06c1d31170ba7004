import Tomahawk.Net.Netbufs

/-!
# What the transport layer gets of a packet

`ipv4_receive` strips the header and clamps the payload to the total length. That length is a
16-bit difference; neither its sign nor the fragment fields are looked at, and a packet that is cut
off is handed over as far as it goes.
-/

namespace Tomahawk.Net

open Tomahawk.Lib

/-- The protocols of the `switch` in `ipv4_receive`. -/
def IsTransport (protocol : UInt8) : Prop :=
  protocol = ipProtoIcmp ∨ protocol = ipProtoUdp ∨ protocol = ipProtoTcp

instance (protocol : UInt8) : Decidable (IsTransport protocol) := instDecidableOr

/-- The `switch` in `ipv4_receive`. -/
def transportReceive (send : Device → Netbuf → Prog Stack ℤ) (dev : Device) (protocol : UInt8)
    (nb : Netbuf) (src : Ipv4Addr) : Prog Stack Unit :=
  if protocol = ipProtoIcmp then icmpReceive send dev nb src
  else if protocol = ipProtoUdp then udpDeliver nb src
  else if protocol = ipProtoTcp then tcpInput send nb
  else pure ()

/-- The payload with which `ipv4_receive` comes to a case of the `switch`. -/
def ipv4Handed (ip : Ipv4Addr) (packet : List UInt8) : Option (List UInt8) :=
  match parseIpv4 ip packet with
  | some info =>
    if IsTransport info.protocol then some ((packet.drop info.ihl).take info.payloadLen) else none
  | none => none

/-- A transport layer is called with the payload, or nothing happens but that bytes of the buffer
are looked at. -/
def HandsOver (send : Device → Netbuf → Prog Stack ℤ) (dev : Device) (nb : Netbuf) (s : Stack) :
    Option (List UInt8) → Prop
  | some payload => ∃ data spans, ipv4Receive send dev nb s = transportReceive send dev
      (byteAt nb.bytes 9) ⟨nb.idx, data, payload⟩ (ipAt nb.bytes 12) { s with spans := spans }
  | none => ∃ spans, ipv4Receive send dev nb s = some ((), { s with spans := spans })

/-- The header length in bytes. -/
def headerLength (packet : List UInt8) : ℕ := (byteAt packet 0).toNat % 16 * 4

/-- A header with a right checksum, on a packet for the device. -/
structure ValidHeader (ip : Ipv4Addr) (packet : List UInt8) : Prop where
  length : 20 ≤ packet.length
  version : (byteAt packet 0).toNat / 16 = 4
  ihl : 20 ≤ headerLength packet ∧ headerLength packet ≤ packet.length
  checksum : netChecksum (packet.take (headerLength packet)) 0 = 0
  dst : ipAt packet 16 = ip ∨ ipAt packet 16 = Ipv4Addr.broadcast

/-- The total length covers the header and was received, and neither the flag for more fragments
nor an offset is set. -/
def Whole (packet : List UInt8) : Prop :=
  headerLength packet ≤ be16At packet 2 ∧ be16At packet 2 ≤ packet.length ∧
    be16At packet 6 % 0x4000 = 0

instance (packet : List UInt8) : Decidable (Whole packet) := instDecidableAnd

/-- The payload of a packet for a transport layer: from the header length to the total length. -/
def ipv4Payload (packet : List UInt8) : Option (List UInt8) :=
  if IsTransport (byteAt packet 9) ∧ Whole packet then
    some ((packet.take (be16At packet 2)).drop (headerLength packet))
  else none

variable {send : Device → Netbuf → Prog Stack ℤ} {dev : Device} {nb : Netbuf} {s : Stack}
  {ip : Ipv4Addr} {packet : List UInt8}

theorem handsOver_ipv4Handed : HandsOver send dev nb s (ipv4Handed dev.ip nb.bytes) := by
  unfold ipv4Handed
  cases hinfo : parseIpv4 dev.ip nb.bytes with
  | none => exact ⟨s.spans, by rw [ipv4Receive, hinfo]; rfl⟩
  | some info =>
    obtain ⟨hprotocol, -, hihl⟩ := parseIpv4_spec hinfo
    have hsrc : info.src = ipAt nb.bytes 12 := by
      rw [parseIpv4] at hinfo
      split_ifs at hinfo
      rw [← Option.some.inj hinfo]
    have hrun : ∃ data spans, ipv4Receive send dev nb s = transportReceive send dev info.protocol
        ⟨nb.idx, data, (nb.bytes.drop info.ihl).take info.payloadLen⟩ info.src
          { s with spans := spans } := by
      simp only [ipv4Receive, hinfo, netbufPull, netbufTrim, Netbuf.mark, bind_assoc, pure_bind,
        use_bind, Nat.min_eq_left hihl]
      exact ⟨_, _, rfl⟩
    rw [hprotocol, hsrc] at hrun
    obtain ⟨data, spans, hrun⟩ := hrun
    dsimp only
    rw [hprotocol]
    split_ifs with htransport
    · exact ⟨data, spans, hrun⟩
    · rw [IsTransport, not_or, not_or] at htransport
      rw [transportReceive, if_neg htransport.1, if_neg htransport.2.1, if_neg htransport.2.2] at hrun
      exact ⟨spans, hrun⟩

theorem ValidHeader.parseIpv4_eq (h : ValidHeader ip packet) :
    parseIpv4 ip packet = some ⟨ipAt packet 12, byteAt packet 9, headerLength packet,
      (be16At packet 2 + 65536 - headerLength packet) % 65536⟩ := by
  obtain ⟨hlength, hversion, hihl, hchecksum, hdst⟩ := h
  unfold headerLength at hihl hchecksum
  have hdst' : ¬ (ipAt packet 16 ≠ ip ∧ ipAt packet 16 ≠ Ipv4Addr.broadcast) := fun hne =>
    hdst.elim hne.1 hne.2
  rw [parseIpv4, if_neg (by omega), if_neg (not_not.mpr hversion), if_neg (by omega),
    if_neg (not_not.mpr hchecksum), if_neg hdst']
  rfl

theorem be16At_lt (l : List UInt8) (k : ℕ) : be16At l k < 65536 := by
  have := (byteAt l k).toNat_lt
  have := (byteAt l (k + 1)).toNat_lt
  unfold be16At
  omega

/-- A transport layer gets what `ipv4_receive` hands over; and for a packet with a valid header
this is the payload exactly if the packet is for no transport layer, or is whole. -/
theorem ipv4_payload_iff (send : Device → Netbuf → Prog Stack ℤ) (dev : Device) (nb : Netbuf)
    (s : Stack) :
    HandsOver send dev nb s (ipv4Handed dev.ip nb.bytes) ∧
      ((ValidHeader dev.ip nb.bytes → ipv4Handed dev.ip nb.bytes = ipv4Payload nb.bytes) ↔
        (ValidHeader dev.ip nb.bytes → IsTransport (byteAt nb.bytes 9) → Whole nb.bytes)) := by
  refine ⟨handsOver_ipv4Handed, forall_congr' fun hvalid => ?_⟩
  rw [ipv4Handed, hvalid.parseIpv4_eq, ipv4Payload]
  by_cases htransport : IsTransport (byteAt nb.bytes 9)
  · by_cases hwhole : Whole nb.bytes
    · have hlen : (be16At nb.bytes 2 + 65536 - headerLength nb.bytes) % 65536 =
          be16At nb.bytes 2 - headerLength nb.bytes := by
        have := hwhole.1
        have := be16At_lt nb.bytes 2
        omega
      simp [htransport, hwhole, hlen, List.drop_take]
    · simp [htransport, hwhole]
  · simp [htransport]

/-- The header of a datagram to the loopback device whose total length is one less than the header,
and a byte behind it. -/
def shortPacket : List UInt8 :=
  let header := ipv4Header 19 0 ipProtoUdp loDevice.ip loDevice.ip
  storeAt header 10 (le16 (netChecksum header 0)) ++ [65]

/-- The length of the payload wraps around, and the byte is handed over. -/
theorem ipv4_payload_wraps : ValidHeader loDevice.ip shortPacket ∧
    ipv4Handed loDevice.ip shortPacket = some [65] ∧ ipv4Payload shortPacket = none :=
  ⟨⟨by decide, by decide, by decide, by decide, by decide⟩, by decide, by decide⟩

end Tomahawk.Net
