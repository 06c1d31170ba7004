import Tomahawk.Net.Tcp

/-!
# Headers

The headers that the stack puts in front of a message, and the tests that the layers of the
receive path make before they strip theirs. The checksum is the sum of the little-endian 16-bit
words, with the carries added, inverted.
-/

namespace Tomahawk.Net

open Tomahawk.Lib

/-- `mac_addr_t` -/
structure MacAddr where
  b0 : UInt8
  b1 : UInt8
  b2 : UInt8
  b3 : UInt8
  b4 : UInt8
  b5 : UInt8
  deriving DecidableEq

/-- `MAC_BROADCAST` -/
def MacAddr.broadcast : MacAddr := ⟨255, 255, 255, 255, 255, 255⟩

/-- `MAC_ZERO` -/
def MacAddr.zero : MacAddr := ⟨0, 0, 0, 0, 0, 0⟩

def MacAddr.bytes (m : MacAddr) : List UInt8 := [m.b0, m.b1, m.b2, m.b3, m.b4, m.b5]

/-- `IPV4_BROADCAST` -/
def Ipv4Addr.broadcast : Ipv4Addr := ⟨255, 255, 255, 255⟩

def Ipv4Addr.bytes (a : Ipv4Addr) : List UInt8 := [a.b0, a.b1, a.b2, a.b3]

/-- The bits that an address shares with a mask. -/
def Ipv4Addr.land (a m : Ipv4Addr) : Ipv4Addr :=
  ⟨a.b0 &&& m.b0, a.b1 &&& m.b1, a.b2 &&& m.b2, a.b3 &&& m.b3⟩

/-- The address with the bits outside of a mask set. -/
def Ipv4Addr.orNot (a m : Ipv4Addr) : Ipv4Addr :=
  ⟨a.b0 ||| ~~~m.b0, a.b1 ||| ~~~m.b1, a.b2 ||| ~~~m.b2, a.b3 ||| ~~~m.b3⟩

/-- A 16-bit number in network order. -/
def be16 (n : ℕ) : List UInt8 := [UInt8.ofNat (n / 256), UInt8.ofNat n]

/-- A 32-bit number in network order. -/
def be32 (n : UInt32) : List UInt8 :=
  [(n >>> 24).toUInt8, (n >>> 16).toUInt8, (n >>> 8).toUInt8, n.toUInt8]

/-- A 16-bit number as the machine stores it. -/
def le16 (n : ℕ) : List UInt8 := [UInt8.ofNat n, UInt8.ofNat (n / 256)]

@[simp] theorem length_le16 (n : ℕ) : (le16 n).length = 2 := rfl

def byteAt (l : List UInt8) (k : ℕ) : UInt8 := l.getD k 0

/-- `ntohs` of two bytes of a message. -/
def be16At (l : List UInt8) (k : ℕ) : ℕ := (byteAt l k).toNat * 256 + (byteAt l (k + 1)).toNat

def ipAt (l : List UInt8) (k : ℕ) : Ipv4Addr :=
  ⟨byteAt l k, byteAt l (k + 1), byteAt l (k + 2), byteAt l (k + 3)⟩

def macAt (l : List UInt8) (k : ℕ) : MacAddr :=
  ⟨byteAt l k, byteAt l (k + 1), byteAt l (k + 2), byteAt l (k + 3), byteAt l (k + 4),
    byteAt l (k + 5)⟩

/-- The sum of the 16-bit words, with a byte at the end on its own. -/
def wordSum : List UInt8 → ℕ
  | a :: b :: rest => a.toNat + b.toNat * 256 + wordSum rest
  | [a] => a.toNat
  | [] => 0

/-- The loop that adds the carries. Three turns are enough for a 32-bit sum. -/
def foldCarries : ℕ → ℕ → ℕ
  | 0, sum => sum
  | fuel + 1, sum => if sum < 65536 then sum else foldCarries fuel (sum % 65536 + sum / 65536)

/-- `net_checksum` -/
def netChecksum (l : List UInt8) (initial : ℕ) : ℕ := 65535 - foldCarries 3 (initial + wordSum l)

/-! ## Messages that are sent -/

/-- `ETHERTYPE_IPV4` -/
def ethertypeIpv4 : ℕ := 0x0800

/-- `ETHERTYPE_ARP` -/
def ethertypeArp : ℕ := 0x0806

/-- `IP_PROTO_ICMP` -/
def ipProtoIcmp : UInt8 := 1

/-- `IP_PROTO_TCP` -/
def ipProtoTcp : UInt8 := 6

/-- `IP_PROTO_UDP` -/
def ipProtoUdp : UInt8 := 17

/-- `eth_header_t` -/
def ethHeader (dst src : MacAddr) (ethertype : ℕ) : List UInt8 :=
  dst.bytes ++ src.bytes ++ be16 ethertype

@[simp] theorem length_ethHeader (dst src : MacAddr) (ethertype : ℕ) :
    (ethHeader dst src ethertype).length = 14 := rfl

/-- `ipv4_header_t` with the checksum 0. -/
def ipv4Header (totalLength identification : ℕ) (protocol : UInt8) (src dst : Ipv4Addr) :
    List UInt8 :=
  [0x45, 0] ++ be16 totalLength ++ be16 identification ++ be16 0x4000 ++ [64, protocol, 0, 0] ++
    src.bytes ++ dst.bytes

@[simp] theorem length_ipv4Header (totalLength identification : ℕ) (protocol : UInt8)
    (src dst : Ipv4Addr) :
    (ipv4Header totalLength identification protocol src dst).length = 20 := rfl

/-- `udp_header_t` with the checksum 0. -/
def udpHeader (srcPort dstPort : UInt16) (length : ℕ) : List UInt8 :=
  be16 srcPort.toNat ++ be16 dstPort.toNat ++ be16 length ++ [0, 0]

@[simp] theorem length_udpHeader (srcPort dstPort : UInt16) (length : ℕ) :
    (udpHeader srcPort dstPort length).length = 8 := rfl

/-- `udp_pseudo_header_t`, and what `tcp_checksum` sums first. -/
def pseudoHeader (src dst : Ipv4Addr) (protocol : UInt8) (length : ℕ) : List UInt8 :=
  src.bytes ++ dst.bytes ++ [0, protocol] ++ be16 length

/-- `icmp_header_t` of an echo request, with the checksum 0. -/
def icmpHeader (id seq : UInt16) : List UInt8 :=
  [8, 0, 0, 0] ++ be16 id.toNat ++ be16 seq.toNat

@[simp] theorem length_icmpHeader (id seq : UInt16) : (icmpHeader id seq).length = 8 := rfl

/-- `arp_header_t` -/
def arpHeader (oper : ℕ) (senderMac : MacAddr) (senderIp : Ipv4Addr) (targetMac : MacAddr)
    (targetIp : Ipv4Addr) : List UInt8 :=
  be16 1 ++ be16 ethertypeIpv4 ++ [6, 4] ++ be16 oper ++ senderMac.bytes ++ senderIp.bytes ++
    targetMac.bytes ++ targetIp.bytes

@[simp] theorem length_arpHeader (oper : ℕ) (senderMac : MacAddr) (senderIp : Ipv4Addr)
    (targetMac : MacAddr) (targetIp : Ipv4Addr) :
    (arpHeader oper senderMac senderIp targetMac targetIp).length = 28 := rfl

/-- `tcp_header_t` with the checksum 0. The acknowledgement is set only with its flag. -/
def tcpHeader (srcPort dstPort : UInt16) (seq ack : UInt32) (flags : UInt8) : List UInt8 :=
  be16 srcPort.toNat ++ be16 dstPort.toNat ++ be32 seq ++
    be32 (if flags &&& tcpFlagAck ≠ 0 then ack else 0) ++ [0x50, flags] ++ be16 8192 ++
    [0, 0, 0, 0]

@[simp] theorem length_tcpHeader (srcPort dstPort : UInt16) (seq ack : UInt32) (flags : UInt8) :
    (tcpHeader srcPort dstPort seq ack flags).length = 20 := rfl

/-! ## Messages that are received -/

/-- The tests of `ethernet_receive`: the EtherType of a frame for the address. -/
def parseEthernet (mac : MacAddr) (frame : List UInt8) : Option ℕ :=
  if frame.length < 14 then none
  else if macAt frame 0 ≠ mac ∧ macAt frame 0 ≠ MacAddr.broadcast then none
  else some (be16At frame 12)

/-- What `ipv4_receive` takes from a header. -/
structure Ipv4Info where
  src : Ipv4Addr
  protocol : UInt8
  ihl : ℕ
  payloadLen : ℕ
  deriving DecidableEq

/-- The tests of `ipv4_receive`. The length of the payload is a 16-bit difference. -/
def parseIpv4 (ip : Ipv4Addr) (packet : List UInt8) : Option Ipv4Info :=
  let ihl := (byteAt packet 0).toNat % 16 * 4
  if packet.length < 20 then none
  else if (byteAt packet 0).toNat / 16 ≠ 4 then none
  else if ihl < 20 ∨ packet.length < ihl then none
  else if netChecksum (packet.take ihl) 0 ≠ 0 then none
  else if ipAt packet 16 ≠ ip ∧ ipAt packet 16 ≠ Ipv4Addr.broadcast then none
  else some ⟨ipAt packet 12, byteAt packet 9, ihl, (be16At packet 2 + 65536 - ihl) % 65536⟩

/-- The tests of `icmp_receive` for a message that is answered. -/
def isEchoRequest (message : List UInt8) : Bool :=
  decide (8 ≤ message.length ∧ netChecksum message 0 = 0 ∧ byteAt message 0 = 8)

end Tomahawk.Net
