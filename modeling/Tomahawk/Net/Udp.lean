import Tomahawk.Lib.Table
import Mathlib.Data.UInt

/-!
# The UDP bind table

`udp.c` keeps sixteen entries from a local port to a receive callback.
Binding refuses a port that is already active, and `udpReceive` calls the
callback of the first active entry for the destination port of a datagram.
The callback receives the sender and the payload, but not the port.
-/

namespace Tomahawk.Net

open Function Tomahawk.Lib

/-- `UDP_MAX_BINDS`. -/
abbrev udpMaxBinds : ℕ := 16

scoped instance : NeZero udpMaxBinds := ⟨by decide⟩

/-- `UDP_HEADER_LEN`. -/
def udpHeaderLen : ℕ := 8

/-- Host to network byte order. -/
def htons (h : UInt16) : UInt16 := (h >>> 8) ||| (h <<< 8)

/-- Network to host byte order, the same swap on a little-endian machine. -/
def ntohs (n : UInt16) : UInt16 := htons n

/-- A 16-bit load from two consecutive bytes on a little-endian machine. -/
def loadU16 (b0 b1 : UInt8) : UInt16 := b0.toUInt16 ||| (b1.toUInt16 <<< 8)

/-- An IPv4 address as its four bytes in network order. -/
structure Ipv4Addr where
  b0 : UInt8
  b1 : UInt8
  b2 : UInt8
  b3 : UInt8
  deriving DecidableEq

/-- `IPV4_ZERO`. -/
def Ipv4Addr.zero : Ipv4Addr := ⟨0, 0, 0, 0⟩

/-- The functions a port can be bound to: the socket layer registers one
shared dispatcher for all its ports, and other users register their own. -/
inductive UdpCallback where
  | socketUdpDispatch
  | other (user : ℕ)
  deriving DecidableEq

/-- `udp_bind_entry_t`. -/
structure UdpBindEntry where
  port : UInt16
  cb : UdpCallback
  active : Bool
  deriving DecidableEq

/-- The table `bind_table`. -/
abbrev BindTable := Fin udpMaxBinds → UdpBindEntry

/-- The test of the scans in `udp_bind`, `udp_unbind` and `udp_receive`. -/
def bindMatches (t : BindTable) (port : UInt16) (i : Fin udpMaxBinds) : Bool :=
  (t i).active && (t i).port == port

/-- `udp_bind`: refuse a bound port, then take the first free slot. -/
def udpBind (t : BindTable) (port : UInt16) (cb : UdpCallback) : Option BindTable :=
  match firstFin (bindMatches t port) with
  | some _ => none
  | none =>
    match firstFin (fun i => !(t i).active) with
    | some i => some (update t i ⟨port, cb, true⟩)
    | none => none

/-- `udp_unbind`: deactivate the first active entry for the port. The source
returns `-1` when there is none, and no caller looks at the result. -/
def udpUnbind (t : BindTable) (port : UInt16) : BindTable :=
  updateFirst t (bindMatches t port) fun e => { e with active := false }

/-- The fields of a datagram that `udp_receive` passes on. -/
structure Datagram where
  srcPort : UInt16
  dstPort : UInt16
  payload : List UInt8
  deriving DecidableEq

/-- The header checks of `udp_receive`: a buffer shorter than a header, or a
length field that is shorter than a header or longer than the buffer, is dropped. -/
def parseUdp (nb : List UInt8) : Option Datagram :=
  match nb with
  | s0 :: s1 :: d0 :: d1 :: l0 :: l1 :: _ :: _ :: rest =>
    let ulen := (ntohs (loadU16 l0 l1)).toNat
    if ulen < udpHeaderLen ∨ nb.length < ulen then none
    else some ⟨ntohs (loadU16 s0 s1), ntohs (loadU16 d0 d1), rest.take (ulen - udpHeaderLen)⟩
  | _ => none

/-- `udp_receive` up to the call: the callback it invokes, with the datagram. -/
def udpReceive (t : BindTable) (nb : List UInt8) : Option (UdpCallback × Datagram) :=
  match parseUdp nb with
  | none => none
  | some d =>
    match firstFin (bindMatches t d.dstPort) with
    | some i => some ((t i).cb, d)
    | none => none

/-- No two active entries share a port. -/
def BindTable.PortsUnique (t : BindTable) : Prop :=
  ∀ i j, (t i).active = true → (t j).active = true → (t i).port = (t j).port → i = j

variable {t t' : BindTable} {port : UInt16} {cb : UdpCallback} {j : Fin udpMaxBinds}
  {nb : List UInt8} {d : Datagram}

/-- A successful bind fills one inactive slot, for a port no active entry had. -/
theorem udpBind_eq_some (h : udpBind t port cb = some t') :
    (∀ i, (t i).active = true → (t i).port ≠ port) ∧
      ∃ i, (t i).active = false ∧ t' = update t i ⟨port, cb, true⟩ := by
  unfold udpBind at h
  cases hdup : firstFin (bindMatches t port) with
  | some i => simp [hdup] at h
  | none =>
    have hfresh := firstFin_eq_none.mp hdup
    cases hslot : firstFin (fun i => !(t i).active) with
    | none => simp [hdup, hslot] at h
    | some i =>
      refine ⟨fun j hj heq => ?_, i, ?_, ?_⟩
      · have := hfresh j
        simp [bindMatches, hj, heq] at this
      · simpa using firstFin_spec hslot
      · simpa [hdup, hslot] using h.symm

section

variable (hu : t.PortsUnique)
include hu

/-- Binding keeps the active ports distinct. -/
theorem BindTable.PortsUnique.bind (h : udpBind t port cb = some t') : t'.PortsUnique := by
  obtain ⟨hfresh, k, hk, rfl⟩ := udpBind_eq_some h
  exact UniqueKeys.update UdpBindEntry.active UdpBindEntry.port hu k fun _ j _ => hfresh j

/-- With distinct ports, unbinding deactivates exactly the entries of its port. -/
theorem udpUnbind_apply (port : UInt16) (i : Fin udpMaxBinds) :
    udpUnbind t port i =
      if (t i).active = true ∧ (t i).port = port then { t i with active := false } else t i := by
  unfold udpUnbind
  rw [updateFirst_apply]
  · simp only [bindMatches, Bool.and_eq_true, beq_iff_eq]
  · intro j k hj hk
    simp only [bindMatches, Bool.and_eq_true, beq_iff_eq] at hj hk
    exact hu j k hj.1 hk.1 (hj.2.trans hk.2.symm)

/-- What remains bound after an unbind was bound to another port. -/
theorem udpUnbind_active :
    (udpUnbind t port j).active = true ↔ (t j).active = true ∧ (t j).port ≠ port := by
  rw [udpUnbind_apply hu]
  split_ifs with h
  · simp [h.2]
  · simpa using h

/-- The entries of other ports are untouched by an unbind. -/
theorem udpUnbind_of_ne (hj : (t j).port ≠ port) : udpUnbind t port j = t j := by
  rw [udpUnbind_apply hu, if_neg fun h => hj h.2]

/-- Unbinding keeps the active ports distinct. -/
theorem BindTable.PortsUnique.unbind (port : UInt16) : (udpUnbind t port).PortsUnique := by
  refine UniqueKeys.sub UdpBindEntry.active UdpBindEntry.port hu fun j hj => ?_
  exact udpUnbind_of_ne hu ((udpUnbind_active hu).mp hj).2

end

/-- The callback that a datagram reaches is that of an active entry for its port. -/
theorem udpReceive_eq_some (h : udpReceive t nb = some (cb, d)) :
    parseUdp nb = some d ∧ ∃ i, (t i).active = true ∧ (t i).port = d.dstPort ∧ (t i).cb = cb := by
  unfold udpReceive at h
  cases hp : parseUdp nb with
  | none => simp [hp] at h
  | some d' =>
    cases hfind : firstFin (bindMatches t d'.dstPort) with
    | none => simp [hp, hfind] at h
    | some i =>
      simp only [hp, hfind, Option.some.injEq, Prod.mk.injEq] at h
      obtain ⟨hcb, rfl⟩ := h
      have hi := firstFin_spec hfind
      simp only [bindMatches, Bool.and_eq_true, beq_iff_eq] at hi
      exact ⟨rfl, i, hi.1, hi.2, hcb⟩

/-- A datagram for a bound port reaches the callback bound to that port. -/
theorem udpReceive_of_bound (hu : t.PortsUnique) (hp : parseUdp nb = some d) {i : Fin udpMaxBinds}
    (ha : (t i).active = true) (hport : (t i).port = d.dstPort) :
    udpReceive t nb = some ((t i).cb, d) := by
  have hfind : firstFin (bindMatches t d.dstPort) = some i := by
    apply firstFin_unique
    · simp [bindMatches, ha, hport]
    · intro j hj
      simp only [bindMatches, Bool.and_eq_true, beq_iff_eq] at hj
      exact hu j i hj.1 ha (hj.2.trans hport.symm)
  simp [udpReceive, hp, hfind]

end Tomahawk.Net
