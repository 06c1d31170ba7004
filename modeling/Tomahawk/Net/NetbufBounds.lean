import Tomahawk.Net.Netbufs

/-!
# What is used of packet buffers

No test guards the space of a buffer, so a message fits or does not by its length alone: behind
the headroom of 64 bytes there is room for 1984 more. Everything a call uses is inside the
buffers exactly if the payload it was given fits, or for a frame that is received, the echo
request in it if there is one, since the answer is as long. A message that does not fit is recorded
before anything else is done with it, and what is recorded stays.
-/

namespace Tomahawk.Net

open Tomahawk.Lib

variable {α : Type} {send : Device → Netbuf → Prog Stack ℤ} {nb : Netbuf} {dev : Device}
  {l payload : List UInt8} {start : ℤ} {size n k len : ℕ} {f : Prog Stack α} {sp : Span}
  {body : Netbuf → Prog Stack α} {failed : α} {s : Stack} {dst dstIp src : Ipv4Addr}
  {srcPort dstPort dataLen id seq : UInt16} {data : Option Bytes} {ack : UInt32} {flags : UInt8}
  {call : NetCall} {r : ℤ × Stack}

/-! ## Messages that do not fit -/

theorem Room.used (h : Room n s) (start : ℤ) (size : ℕ) : Room n (s.used start size) :=
  ⟨h.nodup, h.length_le⟩

/-- What is recorded stays. -/
theorem Tidies.logs {r : α × Stack} (hf : Tidies n False f) (hs : Room n s) (hsp : sp ∈ s.spans)
    (h : f s = some r) : sp ∈ r.2.spans :=
  (hf.related hs h).spans.subset hsp

/-- Where there is a buffer, the message is made. -/
theorem withNetbuf_body {r : α × Stack} (hs : Room n s) (hfree : s.free ≠ [])
    (h : withNetbuf failed body s = some r) :
    ∃ i t q, Room n t ∧ body ⟨i, 0, []⟩ t = some q ∧ r.2.spans = q.2.spans := by
  obtain ⟨⟨a, t⟩, halloc, hr⟩ := Prog.bind_eq_some.mp h
  rw [netbufAlloc] at halloc
  split at halloc
  · next hnil => exact absurd hnil hfree
  · next i rest hcons =>
    cases halloc
    obtain ⟨q, hq, hr⟩ := Prog.bind_eq_some.mp hr
    cases hr
    obtain ⟨hnodup, hlen⟩ := hs
    rw [hcons] at hnodup hlen
    exact ⟨i, _, q, ⟨(List.nodup_cons.mp hnodup).2, Nat.le_of_succ_le hlen⟩, hq, rfl⟩

theorem reserve_bind (i : ℕ) (g : Netbuf → Prog Stack α) :
    (netbufReserve ⟨i, 0, []⟩ netbufHeadroom >>= g) s = g ⟨i, 64, []⟩ (s.used 64 0) := rfl

theorem put_bind (nb : Netbuf) (g : Netbuf → Prog Stack α) :
    (netbufPut nb payload >>= g) s = g ⟨nb.idx, nb.data, cut16 (nb.bytes ++ payload)⟩
      ((s.used (nb.data + nb.bytes.length) payload.length).used nb.data
        (cut16 (nb.bytes ++ payload)).length) := rfl

/-- A message is recorded when it is put in its buffer. -/
theorem logs_put {g : Netbuf → Prog Stack α} {r : α × Stack} (hg : ∀ nb, Tidies n False (g nb))
    (hs : Room n s) (h : (netbufPut nb payload >>= g) s = some r) :
    ⟨nb.data + nb.bytes.length, payload.length⟩ ∈ r.2.spans := by
  rw [put_bind] at h
  exact Tidies.logs (hg _) ((hs.used _ _).used _ _)
    (.tail _ List.mem_cons_self) h

section Paths

variable (hsend : SendTidy n False send) (hs : Room n s) (hfree : s.free ≠ [])

include hsend hs hfree

theorem logs_udpSend (hdata : payloadOf data dataLen ≠ [])
    (h : udpSend send dev dstIp srcPort dstPort data dataLen s = some r) :
    ⟨64, (payloadOf data dataLen).length⟩ ∈ r.2.spans := by
  obtain ⟨i, t, q, ht, hq, hspans⟩ := withNetbuf_body hs hfree h
  simp only [netbufAppend, if_neg hdata] at hq
  rw [reserve_bind] at hq
  rw [hspans]
  refine logs_put (fun nb => ?_) (ht.used 64 0) hq
  refine tidies_push_bind False.elim (tidies_store_bind False.elim ?_)
  exact tidies_ipv4Send hsend False.elim False.elim

theorem logs_icmpSendEchoRequest (hdata : payloadOf data dataLen ≠ [])
    (h : icmpSendEchoRequest send dev dst id seq data dataLen s = some r) :
    ⟨72, (payloadOf data dataLen).length⟩ ∈ r.2.spans := by
  obtain ⟨i, t, q, ht, hq, hspans⟩ := withNetbuf_body hs hfree h
  simp only [netbufAppend, if_neg hdata] at hq
  rw [reserve_bind, put_bind] at hq
  rw [hspans]
  refine logs_put (fun nb => ?_) (((ht.used _ _).used _ _).used _ _) hq
  exact tidies_store_bind False.elim (tidies_ipv4Send hsend False.elim False.elim)

theorem logs_tcpSendSegment {seq : UInt32} (hdata : payload ≠ [])
    (h : tcpSendSegment send seq ack flags payload s = some r) :
    ⟨64, payload.length⟩ ∈ r.2.spans := by
  obtain ⟨i, t, q, ht, hq, hspans⟩ := withNetbuf_body hs hfree h
  -- The first step reads the connection.
  obtain ⟨p, hp, hq⟩ := Prog.bind_eq_some.mp hq
  cases hp
  simp only [netbufAppend, if_neg hdata] at hq
  rw [reserve_bind] at hq
  rw [hspans]
  refine logs_put (fun nb => ?_) (ht.used 64 0) hq
  refine tidies_push_bind False.elim (tidies_store_bind False.elim ?_)
  exact tidies_ipv4Send hsend False.elim False.elim

theorem logs_tcpWriteBytes {data : List UInt8} (hdata : data ≠ [])
    (hstate : s.tcp.conn.state = .established) (h : tcpWriteBytes send data s = some r) :
    ⟨64, data.length⟩ ∈ r.2.spans := by
  obtain ⟨p, hp, hr⟩ := Prog.bind_eq_some.mp h
  cases hp
  rw [if_neg (not_not.mpr hstate), if_neg hdata] at hr
  obtain ⟨q, hq, hr⟩ := Prog.bind_eq_some.mp hr
  have hlogged := logs_tcpSendSegment hsend hs hfree hdata hq
  -- Only the connection changes after the segment was sent.
  split at hr
  · obtain ⟨p, hp, hr⟩ := Prog.bind_eq_some.mp hr
    cases hp
    cases hr
    exact hlogged
  · cases hr
    exact hlogged

theorem logs_icmpReceive {r : Unit × Stack} (hecho : isEchoRequest nb.bytes = true)
    (h : icmpReceive send dev nb src s = some r) : ⟨64, nb.bytes.length⟩ ∈ r.2.spans := by
  rw [icmpReceive, if_pos hecho] at h
  obtain ⟨i, t, q, ht, hq, hspans⟩ := withNetbuf_body hs hfree h
  rw [reserve_bind] at hq
  rw [hspans]
  refine logs_put (fun nb => ?_) (ht.used 64 0) hq
  refine tidies_store_bind False.elim (tidies_store_bind False.elim (Tidies.discard ?_))
  exact tidies_ipv4Send hsend False.elim False.elim

/-- The answer to a frame. -/
theorem logs_ethernetReceive {r : Unit × Stack} (hlen : len ∈ echoLength dev nb.bytes)
    (h : ethernetReceive send dev nb s = some r) : ⟨64, len⟩ ∈ r.2.spans := by
  obtain ⟨htype, info, hinfo, hicmp, hecho, rfl⟩ := mem_echoLength.mp hlen
  simp only [ethernetReceive, htype, netbufPull, Netbuf.mark, bind_assoc, pure_bind, use_bind,
    Nat.min_eq_left (parseEthernet_spec htype).1] at h
  rw [if_neg (by decide), if_pos trivial] at h
  simp only [ipv4Receive, hinfo, netbufPull, netbufTrim, Netbuf.mark, bind_assoc, pure_bind,
    use_bind, Nat.min_eq_left (parseIpv4_spec hinfo).2.2] at h
  rw [if_pos hicmp] at h
  exact logs_icmpReceive hsend (((hs.used _ _).used _ _).used _ _) hfree hecho h

end Paths

theorem not_inside_of_lt (h : 2048 < start + size) :
    ¬ (⟨start, size⟩ : Span).Inside := by
  rintro ⟨-, hend⟩
  simp only [netbufMaxSize] at hend
  omega

/-- A message that is too long. -/
theorem ne_nil_of_long (hk : k ≤ maxMessage) (h : ¬ l.length + k ≤ maxMessage) : l ≠ [] := by
  rintro rfl
  exact h (by simpa using hk)

/-- A call whose message does not fit uses bytes behind a buffer. -/
theorem exists_outside {depth : ℕ} {r : Unit × Stack} (hs : Room depth s) (hbad : ¬ call.Fits s)
    (h : call.run depth s = some r) :
    ∃ sp ∈ r.2.spans, ¬ sp.Inside := by
  have hsend := sendTidy_driverSend depth False
  have hmax : maxMessage = 1984 := rfl
  cases call with
  | udpSend dev dstIp srcPort dstPort data dataLen =>
    obtain ⟨hfree, hlong⟩ := not_or.mp hbad
    obtain ⟨q, hq, hr⟩ := Prog.bind_eq_some.mp h
    cases hr
    exact ⟨_, logs_udpSend hsend hs hfree (ne_nil_of_long (k := 0) (by omega) hlong) hq,
      not_inside_of_lt (by omega)⟩
  | icmpSendEchoRequest dev dst id seq data dataLen =>
    obtain ⟨hfree, hlong⟩ := not_or.mp hbad
    obtain ⟨q, hq, hr⟩ := Prog.bind_eq_some.mp h
    cases hr
    exact ⟨_, logs_icmpSendEchoRequest hsend hs hfree (ne_nil_of_long (by omega) hlong) hq,
      not_inside_of_lt (by omega)⟩
  | tcpSendSegment seq ack flags data dataLen =>
    obtain ⟨hfree, hlong⟩ := not_or.mp hbad
    obtain ⟨q, hq, hr⟩ := Prog.bind_eq_some.mp h
    cases hr
    exact ⟨_, logs_tcpSendSegment hsend hs hfree (ne_nil_of_long (k := 0) (by omega) hlong) hq,
      not_inside_of_lt (by omega)⟩
  | tcpWrite data dataLen =>
    obtain ⟨hstate, hrest⟩ := not_or.mp hbad
    obtain ⟨hfree, hlong⟩ := not_or.mp hrest
    obtain ⟨q, hq, hr⟩ := Prog.bind_eq_some.mp h
    cases hr
    exact ⟨_, logs_tcpWriteBytes hsend hs hfree (ne_nil_of_long (k := 0) (by omega) hlong)
      (not_not.mp hstate) hq, not_inside_of_lt (by omega)⟩
  | arpSendRequest => exact absurd trivial hbad
  | ethernetReceive dev nb =>
    obtain ⟨hfree, hlong⟩ := not_or.mp hbad
    rw [EchoFits, not_forall] at hlong
    obtain ⟨len, hlen⟩ := hlong
    obtain ⟨hmem, hlen⟩ := Classical.not_imp.mp hlen
    exact ⟨_, logs_ethernetReceive hsend hs hfree hmem h, not_inside_of_lt (by omega)⟩

/-- A call returns and uses nothing outside of the buffers exactly if the message that it makes
first fits behind the headroom, or it makes none. -/
theorem netbufs_inside_iff {s : Stack} (hfree : s.free.Nodup) (hspans : s.spans = [])
    {call : NetCall} (hframe : call.FrameInside) {depth : ℕ} (hdepth : s.free.length ≤ depth) :
    (∃ s', call.run depth s = some ((), s') ∧ ∀ sp ∈ s'.spans, sp.Inside) ↔ call.Fits s := by
  constructor
  · rintro ⟨s', hrun, hin⟩
    by_contra hbad
    obtain ⟨sp, hsp, hout⟩ := exists_outside ⟨hfree, hdepth⟩ hbad hrun
    exact hout (hin sp hsp)
  · intro hfits
    obtain ⟨r, hr, htidy⟩ := tidy_run ⟨hfree, hdepth⟩ (fun _ => hframe) fun _ : True => hfits
    obtain ⟨used, hused, hin⟩ := htidy.inside trivial
    rw [hspans, List.append_nil] at hused
    exact ⟨r.2, hr, hused ▸ hin⟩

/-- The `ping` to the loopback device. -/
theorem netbufs_inside_iff_ping :
    netInit.free.Nodup ∧ ∃ s',
      (NetCall.icmpSendEchoRequest loDevice ⟨127, 0, 0, 1⟩ 1 1 (some fun _ => 0) 56).run 64
        netInit = some ((), s') ∧ ∀ sp ∈ s'.spans, sp.Inside := by
  refine ⟨List.nodup_range, (netbufs_inside_iff List.nodup_range rfl ?hframe ?hdepth).mpr ?hfits⟩
  · trivial
  · decide
  · exact .inr (by decide)

/-- A datagram with 1985 bytes of payload is stored past the end of its buffer. -/
theorem udp_send_overruns : ∃ s',
    (NetCall.udpSend loDevice ⟨127, 0, 0, 1⟩ 1000 2000 (some fun _ => 0) 1985).run 64 netInit =
      some ((), s') ∧ ∃ sp ∈ s'.spans, ¬ sp.Inside := by
  have hroom : Room 64 netInit := ⟨List.nodup_range, by decide⟩
  have hlong : ¬ (payloadOf (some fun _ => 0) 1985).length ≤ maxMessage := by
    rw [payloadOf, Bytes.slice_length]
    decide
  have hbad : ¬ (NetCall.udpSend loDevice ⟨127, 0, 0, 1⟩ 1000 2000 (some fun _ => 0) 1985).Fits
      netInit := not_or.mpr ⟨by decide, hlong⟩
  obtain ⟨r, hr, -⟩ := tidy_run hroom False.elim False.elim
  exact ⟨r.2, hr, exists_outside hroom hbad hr⟩

end Tomahawk.Net
