import Tomahawk.Net.Stack

/-!
# Routing

`net_device_route` takes the first device that is up and has the destination in its subnet. With
a netmask of zero every destination is in the subnet there, and none is in `ipv4_send`.
-/

namespace Tomahawk.Net

/-- A registered device, with its field `link_up`. -/
structure Interface extends Device where
  linkUp : Bool

/-- The loop of `net_device_route`: a device that has the destination on its link, or else the
last one with a gateway. -/
def routeLoop (dst : Ipv4Addr) :
    List Interface → Option Interface → Interface ⊕ Option Interface
  | [], fallback => .inr fallback
  | dev :: devices, fallback =>
    if ¬ dev.linkUp then routeLoop dst devices fallback
    else if dst.land dev.netmask = dev.ip.land dev.netmask then .inl dev
    else routeLoop dst devices (if dev.gateway ≠ Ipv4Addr.zero then some dev else fallback)

/-- `net_device_route` -/
def netDeviceRoute (devices : List Interface) (dst : Ipv4Addr) : Option Interface :=
  match routeLoop dst devices none with
  | .inl dev => some dev
  | .inr fallback => fallback.or devices.head?

/-- The device is up and has the destination in its subnet. -/
def Interface.covers (dst : Ipv4Addr) (dev : Interface) : Bool :=
  dev.linkUp && decide (dst.land dev.netmask = dev.ip.land dev.netmask)

/-- The same, with a subnet that is configured. -/
def Interface.OnLink (dst : Ipv4Addr) (dev : Interface) : Prop :=
  dev.covers dst = true ∧ dev.netmask ≠ Ipv4Addr.zero

/-- The number of ones of a netmask. -/
def Ipv4Addr.maskLength (m : Ipv4Addr) : ℕ :=
  (m.bytes.map fun b => (List.range 8).countP b.toNat.testBit).sum

/-- A destination on some link is routed to one with the longest netmask, and on a device that is
returned as on-link `ipv4_send` broadcasts, or resolves the destination itself. -/
def RoutesAgree (devices : List Interface) (dst : Ipv4Addr) : Prop :=
  ((∃ dev ∈ devices, dev.OnLink dst) → ∃ dev, netDeviceRoute devices dst = some dev ∧
    dev.OnLink dst ∧ ∀ other ∈ devices, other.OnLink dst →
      other.netmask.maskLength ≤ dev.netmask.maskLength) ∧
  ∀ dev, routeLoop dst devices none = .inl dev →
    dst = Ipv4Addr.broadcast ∨ dst = dev.ip.orNot dev.netmask ∨ nextHop dev.toDevice dst = dst

/-- The loop stops at the first device that is up and has the destination in its subnet. -/
theorem routeLoop_eq_inl {dst : Ipv4Addr} {devices : List Interface} {dev : Interface}
    {fallback : Option Interface} :
    routeLoop dst devices fallback = .inl dev ↔ devices.find? (·.covers dst) = some dev := by
  induction devices generalizing fallback with
  | nil => simp [routeLoop]
  | cons d devices ih =>
    rw [routeLoop, List.find?_cons]
    split_ifs <;> simp_all [Interface.covers]

/-- The two decisions agree if and only if the first device that is up and has the destination in
its subnet has the longest netmask of those with the destination on their link, or has none and no
other device has the destination on its link and the gateway is not in the way. -/
theorem routes_agree_iff (devices : List Interface) (dst : Ipv4Addr) :
    RoutesAgree devices dst ↔ ∀ dev, devices.find? (·.covers dst) = some dev →
      (∀ other ∈ devices, other.OnLink dst → dev.netmask ≠ Ipv4Addr.zero ∧
        other.netmask.maskLength ≤ dev.netmask.maskLength) ∧
      (dev.netmask = Ipv4Addr.zero → dst = Ipv4Addr.broadcast ∨
        dst = dev.ip.orNot dev.netmask ∨ dev.gateway = Ipv4Addr.zero ∨ dev.gateway = dst) := by
  simp only [RoutesAgree, routeLoop_eq_inl]
  cases hfind : devices.find? (·.covers dst) with
  | none =>
    have hnone : ∀ dev ∈ devices, ¬ dev.OnLink dst := fun dev hdev hon =>
      List.find?_eq_none.mp hfind dev hdev hon.1
    simpa using fun dev hdev hon => absurd hon (hnone dev hdev)
  | some dev =>
    have hcovers := List.find?_some hfind
    have hroute : netDeviceRoute devices dst = some dev := by
      rw [netDeviceRoute, routeLoop_eq_inl.mpr hfind]
    have hhop : nextHop dev.toDevice dst = dst ↔
        (dev.netmask = Ipv4Addr.zero → dev.gateway = Ipv4Addr.zero ∨ dev.gateway = dst) := by
      simp only [Interface.covers, Bool.and_eq_true, decide_eq_true_eq] at hcovers
      simp only [nextHop, hcovers.2, and_true, not_not]
      split_ifs <;> tauto
    simp only [hroute, Option.some.injEq, exists_eq_left', forall_eq', hhop]
    refine and_congr ⟨fun h other hother hon => ?_, fun h ⟨other, hother, hon⟩ => ?_⟩ (by tauto)
    · obtain ⟨hdev, hle⟩ := h ⟨other, hother, hon⟩
      exact ⟨hdev.2, hle other hother hon⟩
    · exact ⟨⟨hcovers, (h other hother hon).1⟩, fun other hother hon => (h other hother hon).2⟩

/-- The second device with a gateway and no netmask, as a server may configure it. -/
def eth0 : Interface :=
  ⟨⟨⟨2, 0, 0, 0, 0, 1⟩, ⟨10, 0, 2, 15⟩, Ipv4Addr.zero, ⟨10, 0, 2, 2⟩, some .nic⟩, true⟩

/-- The device is returned as on-link for its neighbour, and the gateway is resolved. -/
theorem routes_disagree : ¬ RoutesAgree [⟨loDevice, true⟩, eth0] ⟨10, 0, 2, 3⟩ := by
  intro h
  have hhop := h.2 eth0 rfl
  revert hhop
  decide

end Tomahawk.Net
