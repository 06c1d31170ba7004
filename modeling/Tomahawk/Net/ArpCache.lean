import Tomahawk.Net.Netbufs

/-!
# The ARP cache

An update replaces the entry of its address, wherever there is one. A request takes the first free
entry without looking for an older one, so a second request for an address that is not resolved
makes a second entry.
-/

namespace Tomahawk.Net

open Tomahawk.Lib

/-- The entry is in use for the address. -/
def ArpEntry.Lists (e : ArpEntry) (ip : Ipv4Addr) : Prop := e.state ≠ .free ∧ e.ip = ip

instance (e : ArpEntry) (ip : Ipv4Addr) : Decidable (e.Lists ip) := instDecidableAnd

/-- At most one entry is in use for an address. -/
def UniqueIps (cache : List ArpEntry) : Prop :=
  cache.Pairwise fun e e' => ∀ ip, e.Lists ip → ¬ e'.Lists ip

/-- A cache that has entries, at most one for an address. -/
def CacheOk (cache : List ArpEntry) : Prop := cache ≠ [] ∧ UniqueIps cache

/-- A request makes no second entry: there is none for the address, or no entry is free. -/
def MayAsk (cache : List ArpEntry) (ip : Ipv4Addr) : Prop :=
  (∀ e ∈ cache, ¬ e.Lists ip) ∨ ∀ e ∈ cache, e.state ≠ .free

variable {α β : Type} {a b cache : List ArpEntry} {e n : ArpEntry} {ip : Ipv4Addr} {i : ℕ}
  {P Q R : List ArpEntry → Prop} {f : Prog Stack α} {g : α → Prog Stack β}
  {body next : Netbuf → Prog Stack α} {failed : α} {send : Device → Netbuf → Prog Stack ℤ}
  {dev : Device} {nb : Netbuf} {dst : MacAddr} {receive : Netbuf → Prog Stack Unit}

theorem exists_of_findIdx? {p : ArpEntry → Bool} (h : cache.findIdx? p = some i) :
    ∃ a e b, cache = a ++ e :: b ∧ i = a.length ∧ p e = true ∧ ∀ x ∈ a, p x = false := by
  induction cache generalizing i with
  | nil => cases h
  | cons x cache ih =>
    rw [List.findIdx?_cons] at h
    split_ifs at h with hx
    · exact ⟨[], x, cache, rfl, (Option.some.inj h).symm, hx, by simp⟩
    · obtain ⟨j, hj, rfl⟩ := Option.map_eq_some_iff.mp h
      obtain ⟨a, e, b, rfl, rfl, he, ha⟩ := ih hj
      exact ⟨x :: a, e, b, rfl, rfl, he, by simpa [hx] using ha⟩

/-- An update changes one entry: the first one of the address, or any if there is none. -/
theorem arpCacheUpdate_spec (hcache : cache ≠ []) (ip : Ipv4Addr) (mac : MacAddr) :
    ∃ a e b, cache = a ++ e :: b ∧
      arpCacheUpdate cache ip mac = a ++ ⟨ip, mac, .resolved⟩ :: b ∧ (∀ x ∈ a, ¬ x.Lists ip) ∧
      (e.Lists ip ∨ ∀ x ∈ b, ¬ x.Lists ip) := by
  unfold arpCacheUpdate
  split
  · next hfind =>
    obtain ⟨a, e, b, rfl, rfl, he, ha⟩ := exists_of_findIdx? hfind
    have he := of_decide_eq_true he
    exact ⟨a, e, b, rfl, by simp [List.modify_eq_set_getElem?, he.2],
      fun x hx => of_decide_eq_false (ha x hx), .inl he⟩
  · next hfind =>
    have hnone : ∀ e ∈ cache, ¬ e.Lists ip := fun e he =>
      of_decide_eq_false (List.findIdx?_eq_none_iff.mp hfind e he)
    split
    · next hfree =>
      obtain ⟨a, e, b, rfl, rfl, -, -⟩ := exists_of_findIdx? hfree
      exact ⟨a, e, b, rfl, by simp, fun x hx => hnone x (by simp [hx]),
        .inr fun x hx => hnone x (by simp [hx])⟩
    · obtain ⟨e, b, rfl⟩ := List.exists_cons_of_ne_nil hcache
      exact ⟨[], e, b, rfl, rfl, by simp, .inr fun x hx => hnone x (by simp [hx])⟩

/-- One entry changes, and its address is in no other. -/
theorem UniqueIps.replace (h : UniqueIps (a ++ e :: b)) (hn : n.ip = ip)
    (ha : ∀ x ∈ a, ¬ x.Lists ip) (hb : ∀ x ∈ b, ¬ x.Lists ip) : UniqueIps (a ++ n :: b) := by
  rw [UniqueIps, List.pairwise_append, List.pairwise_cons] at h ⊢
  obtain ⟨hfirst, ⟨-, hlast⟩, hboth⟩ := h
  refine ⟨hfirst, ⟨fun x hx _ hip => ?_, hlast⟩, fun x hx y hy => ?_⟩
  · rw [← hip.2, hn]
    exact hb x hx
  · rcases List.mem_cons.mp hy with rfl | hy
    · rintro _ hip ⟨-, rfl⟩
      exact ha x hx (hn ▸ hip)
    · exact hboth x hx y (.tail _ hy)

theorem CacheOk.update (h : CacheOk cache) (ip : Ipv4Addr) (mac : MacAddr) :
    CacheOk (arpCacheUpdate cache ip mac) := by
  obtain ⟨a, e, b, rfl, heq, ha, hb⟩ := arpCacheUpdate_spec h.1 ip mac
  rw [heq]
  refine ⟨by simp, h.2.replace rfl ha ?_⟩
  rcases hb with he | hb
  · have hlast := (List.pairwise_cons.mp (List.pairwise_append.mp h.2).2.1).1
    exact fun x hx => hlast x hx ip he
  · exact hb

theorem arpCacheLookup_update (hcache : cache ≠ []) (ip : Ipv4Addr) (mac : MacAddr) :
    arpCacheLookup (arpCacheUpdate cache ip mac) ip = some mac := by
  obtain ⟨a, e, b, -, heq, ha, -⟩ := arpCacheUpdate_spec hcache ip mac
  have hbefore : a.find? (fun e => decide (e.state = .resolved ∧ e.ip = ip)) = none := by
    refine List.find?_eq_none.mpr fun x hx htest => ha x hx ?_
    obtain ⟨hstate, hip⟩ := of_decide_eq_true htest
    exact ⟨by simp [hstate], hip⟩
  rw [arpCacheLookup, heq, List.find?_append, hbefore]
  simp

theorem CacheOk.pending (h : CacheOk cache) (hask : MayAsk cache ip) :
    CacheOk (arpCachePending cache ip) := by
  unfold arpCachePending
  split
  · next hfind =>
    obtain ⟨a, e, b, rfl, rfl, he, -⟩ := exists_of_findIdx? hfind
    rcases hask with hnone | hfull
    · rw [List.set_append_right _ _ le_rfl, Nat.sub_self, List.set_cons_zero]
      exact ⟨by simp, h.2.replace rfl (fun x hx => hnone x (by simp [hx]))
        fun x hx => hnone x (by simp [hx])⟩
    · exact absurd (of_decide_eq_true he) (hfull e (by simp))
  · exact h

/-! ## The functions -/

/-- The program turns a cache with `P` into one with `Q`. -/
def Turns (P Q : List ArpEntry → Prop) (f : Prog Stack α) : Prop :=
  ∀ s r, f s = some r → P s.arpCache → Q r.2.arpCache

theorem Turns.bind (hf : Turns P Q f) (hg : ∀ a, Turns Q R (g a)) : Turns P R (f >>= g) := by
  intro s r h hs
  obtain ⟨p, hp, hr⟩ := Prog.bind_eq_some.mp h
  exact hg p.1 p.2 r hr (hf s p hp hs)

theorem turns_pure (a : α) : Turns P P (pure a : Prog Stack α) := by
  rintro s _ ⟨⟩ hs
  exact hs

theorem turns_setArpCache {u : List ArpEntry → List ArpEntry}
    (hu : ∀ cache, P cache → Q (u cache)) : Turns P Q (setArpCache u) := by
  rintro s _ ⟨⟩ hs
  exact hu _ hs

theorem turns_withNetbuf (hPQ : ∀ cache, P cache → Q cache)
    (hbody : ∀ i, Turns P Q (body ⟨i, 0, []⟩)) : Turns P Q (withNetbuf failed body) := by
  intro s r h hs
  obtain ⟨⟨o, t⟩, halloc, hr⟩ := Prog.bind_eq_some.mp h
  rw [netbufAlloc] at halloc
  split at halloc <;> cases halloc
  · cases hr
    exact hPQ _ hs
  · obtain ⟨q, hq, hr⟩ := Prog.bind_eq_some.mp hr
    cases hr
    exact hbody _ _ q hq hs

/-- Frames with the EtherType of ARP. -/
def IsArp (frame : List UInt8) : Prop := frame.length < 65536 ∧ be16At frame 12 = ethertypeArp

/-- What a driver does with an ARP frame keeps the cache. -/
def SendKeeps (send : Device → Netbuf → Prog Stack ℤ) : Prop :=
  ∀ dev nb, IsArp nb.bytes → Turns CacheOk CacheOk (send dev nb)

theorem turns_sendArp (hsend : SendKeeps send) (hnb : nb.bytes.length = 28) :
    Turns CacheOk CacheOk (ethernetSendFrame send dev nb dst ethertypeArp) := by
  unfold ethernetSendFrame
  cases dev.driver with
  | none => exact turns_pure _
  | some _ =>
    intro s r h hs
    have hlen : (ethHeader dst dev.mac ethertypeArp ++ nb.bytes).length < 65536 := by simp [hnb]
    refine hsend dev _ ?_ _ r h hs
    rw [cut16_eq hlen]
    exact ⟨hlen, be16At_arpFrame dst dev.mac nb.bytes⟩

theorem turns_arpSendRequest (hsend : SendKeeps send) :
    Turns (fun cache => CacheOk cache ∧ MayAsk cache ip) CacheOk (arpSendRequest send dev ip) := by
  have hpending : Turns (fun cache => CacheOk cache ∧ MayAsk cache ip) CacheOk
      (setArpCache fun cache => arpCachePending cache ip) :=
    turns_setArpCache fun _ h => h.1.pending h.2
  refine turns_withNetbuf (fun _ h => h.1) fun i s r h hs => ?_
  exact (hpending.bind fun _ => turns_sendArp hsend rfl) _ r h hs

theorem turns_arpReceive (hsend : SendKeeps send) :
    Turns CacheOk CacheOk (arpReceive send dev nb) := by
  unfold arpReceive
  dsimp only
  split_ifs
  · exact turns_pure _
  · exact turns_pure _
  all_goals refine (turns_setArpCache fun _ h => h.update _ _).bind fun _ => ?_
  · refine turns_withNetbuf (fun _ h => h) fun i s r h hs => ?_
    exact ((turns_sendArp hsend rfl).bind fun _ => turns_pure _) _ r h hs
  · exact turns_pure _

theorem turns_sendVia
    (hreceive : ∀ rx : Netbuf, IsArp rx.bytes → Turns CacheOk CacheOk (receive rx))
    (hnb : IsArp nb.bytes) : Turns CacheOk CacheOk (sendVia receive dev nb) := by
  unfold sendVia
  split
  · exact turns_pure _
  · rintro s _ ⟨⟩ hs
    exact hs
  · unfold loSend
    split_ifs
    · exact turns_pure _
    · refine turns_withNetbuf (fun _ h => h) fun i s r h hs => ?_
      refine ((hreceive ⟨i, 0, cut16 ([] ++ nb.bytes)⟩ ?_).bind fun _ => turns_pure _) _ r h hs
      rw [List.nil_append, cut16_eq hnb.1]
      exact hnb

/-- By induction on how often frames loop back: the answer to an ARP frame is an ARP frame. -/
theorem sendKeeps_driverSend (depth : ℕ) : SendKeeps (driverSend depth) := by
  induction depth with
  | zero => exact fun _ _ hnb => turns_sendVia (fun _ _ _ _ h => nomatch h) hnb
  | succ depth ih =>
    refine fun dev nb hnb => turns_sendVia (fun rx hrx => ?_) hnb
    unfold ethernetReceive parseEthernet
    split_ifs
    · exact turns_pure _
    · exact turns_pure _
    · rw [hrx.2]
      exact fun _ r h hs => turns_arpReceive ih _ r h hs

/-! ## Runs -/

/-- The states that calls lead to, where an address is asked for only if it has no entry in use or
no entry is free. Frames can loop back `depth` times. -/
inductive ArpReached (s₀ : Stack) : Stack → Prop
  | start : ArpReached s₀ s₀
  | resolve {s : Stack} {r : Option MacAddr × Stack} (depth : ℕ) (dev : Device) (ip : Ipv4Addr) :
      ArpReached s₀ s → (arpCacheLookup s.arpCache ip).isSome ∨ MayAsk s.arpCache ip →
      arpResolve (driverSend depth) dev ip s = some r → ArpReached s₀ r.2
  | request {s : Stack} {r : ℤ × Stack} (depth : ℕ) (dev : Device) (ip : Ipv4Addr) :
      ArpReached s₀ s → MayAsk s.arpCache ip →
      arpSendRequest (driverSend depth) dev ip s = some r → ArpReached s₀ r.2
  | receive {s : Stack} {r : Unit × Stack} (depth : ℕ) (dev : Device) (nb : Netbuf) :
      ArpReached s₀ s → arpReceive (driverSend depth) dev nb s = some r → ArpReached s₀ r.2

/-- In every state that is reached so, the cache has at most one entry in use for an address, and
a lookup after an update finds the new hardware address. -/
theorem arp_cache_unique (s₀ s : Stack) (hs₀ : CacheOk s₀.arpCache) (h : ArpReached s₀ s) :
    UniqueIps s.arpCache ∧
      ∀ ip mac, arpCacheLookup (arpCacheUpdate s.arpCache ip mac) ip = some mac := by
  have hok : CacheOk s.arpCache := by
    induction h with
    | start => exact hs₀
    | receive depth dev nb _ hcall ih =>
      exact turns_arpReceive (sendKeeps_driverSend depth) _ _ hcall ih
    | request depth dev ip _ hask hcall ih =>
      exact turns_arpSendRequest (sendKeeps_driverSend depth) _ _ hcall ⟨ih, hask⟩
    | @resolve s r depth dev ip _ hmeets hcall ih =>
      obtain ⟨q, hq, hr⟩ := Prog.bind_eq_some.mp hcall
      cases hq
      cases hfound : arpCacheLookup s.arpCache ip with
      | some mac =>
        rw [hfound] at hr
        cases hr
        exact ih
      | none =>
        rw [hfound] at hr hmeets
        have hask := hmeets.resolve_left nofun
        have hsend := sendKeeps_driverSend depth
        exact ((turns_arpSendRequest hsend).bind fun _ => turns_pure _) s r hr ⟨ih, hask⟩
  exact ⟨hok.2, arpCacheLookup_update hok.1⟩

/-- A network card, and an address on its link. -/
def nicDevice : Device := ⟨MacAddr.zero, ⟨10, 0, 0, 1⟩, ⟨255, 0, 0, 0⟩, Ipv4Addr.zero, some .nic⟩
def peerIp : Ipv4Addr := ⟨10, 0, 0, 2⟩

theorem arp_cache_unique_request : ∃ r, arpSendRequest (driverSend 0) nicDevice peerIp netInit =
    some r ∧ UniqueIps r.2.arpCache := by
  have hempty : CacheOk (List.replicate arpCacheSize ⟨Ipv4Addr.zero, MacAddr.zero, .free⟩) :=
    ⟨by decide, List.pairwise_replicate.mpr (.inr fun _ h => absurd rfl h.1)⟩
  have hask : ∀ e ∈ netInit.arpCache, ¬ e.Lists peerIp := by decide
  exact ⟨_, rfl, (arp_cache_unique netInit _ (hempty.update loDevice.ip loDevice.mac)
    (.request 0 nicDevice peerIp .start (.inl hask) rfl)).1⟩

/-- A second request before the answer makes a second entry. -/
theorem arp_cache_twice : ∃ r, (do
    let _ ← arpSendRequest (driverSend 0) nicDevice peerIp
    arpSendRequest (driverSend 0) nicDevice peerIp) netInit = some r ∧
    ¬ UniqueIps r.2.arpCache := by
  refine ⟨_, rfl, fun h => ?_⟩
  exact List.pairwise_iff_getElem.mp h 1 2 (by decide) (by decide) (by decide) peerIp
    (by decide) (by decide)

end Tomahawk.Net
