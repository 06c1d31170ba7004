import Tomahawk.Fat32.Coherence

/-!
# The effect of a write

A write that begins in the file puts its bytes there and changes nothing of another file or
directory but the entry of the file. A write that begins behind the end of the file makes a hole.
New clusters of the hole are cleared, but what is left in the last clusters that the file had
before becomes a part of the file.
-/

namespace Tomahawk.Fat32

open Tomahawk.Lib

variable {v v' : Volume} {d n off frames : ℕ} {l k : List ℕ} {e : Live} {vp vp' : Vnode}
  {content : List UInt8} {r : ℤ} {bytes src : Bytes} {u w : Volume} {vp₁ : Vnode} {k₀ ext : List ℕ}
  {endOffset x : ℕ}

/-- A write to a non-empty file through its only vnode returns the length, reads then return the
contents with the bytes in their place, and of the chains of all other owners only the slot of the
file's entry can change. -/
theorem fat32_write_spliced (h : FileAt v d l e content) (hvp : VnodeOf vp d e.pos)
    (hstart : vp.startCluster = e.cluster) (hsize : vp.fileSize = content.length)
    (hcontent : content ≠ []) (hn : n ≠ 0) (hframes : frames ≠ 0) (hoff : off ≤ content.length)
    (hend : off + n < 2 ^ 31) (hfree : EnoughFree v e.cluster (off + n)) (src : Bytes) :
    ∃ v' vp', vopWriteAt frames v vp src n off = some (v', vp', (n : ℤ)) ∧
      vp'.fileSize = max content.length (off + n) ∧
      (∀ nbyte offset, offset + nbyte < 2 ^ 64 → vopReadAt frames v' vp' nbyte offset =
        (asInt (min nbyte (max content.length (off + n) - offset)),
          ((overwrite content off (src.slice 0 n)).drop offset).take nbyte)) ∧
      ∀ o c l', o ≠ .entry d e.pos → Owns v o c → v.Chain c l' →
        v'.Chain c l' ∧ ∀ x ∈ l', ∀ i, ¬ InSlot v l e.pos x i → v'.data x i = v.data x i := by
  have htwo : 2 ≤ e.cluster := by
    obtain ⟨k, hk, hne, -⟩ := h.bytes.resolve_left fun hnil => hcontent hnil.2
    exact (hk.isData_start hne).1
  have hfresh : WriteFresh vp e content.length (off + n) :=
    ⟨.inl ⟨by omega, hstart⟩, by rw [hsize]⟩
  obtain ⟨v', vp', k, bytes, hwrite, hcopied, hsize', hat⟩ :=
    h.vopWriteAt_copied hvp hn hframes hoff (by omega) hfresh hfree src
  have hlen : (overwrite content off (src.slice 0 n)).length = max content.length (off + n) := by
    rw [length_overwrite hoff, Bytes.slice_length]
  refine ⟨v', vp', ?_, hsize'.trans hlen, fun nbyte offset hno => ?_, hcopied.others⟩
  · rw [hwrite, asInt_of_lt (by omega)]
  · have hcount : readCount vp'.fileSize nbyte offset =
        min nbyte ((overwrite content off (src.slice 0 n)).length - offset) := by
      rw [readCount_eq hno, hsize']
    rw [hat.vopReadAt_eq hframes hcount (.inl hcopied.cluster.symm), hlen]

/-- A byte was written to the new file `A`. -/
def shortA : FileRun :=
  createdA.step (rootVnode smallGeometry) nameA (.write 8 0 (fun _ => 66) 1 0)

/-- The only vnode of `A`. -/
def vnodeA : Vnode := ⟨3, 1, attrArchive, 2, 0⟩

theorem fileAt_shortA : ∃ e, FileAt shortA.volume 2 [2] e [66] ∧ VnodeOf vnodeA 2 e.pos ∧
    vnodeA.startCluster = e.cluster := by
  obtain ⟨l, e₀, hopen₀⟩ := createdA_open
  obtain ⟨e, hopen⟩ := hopen₀.step _ createdA_writeMeets
  have hchain : shortA.volume.Chain 2 [2] := by decide
  have hcontent : shortA.content = [66] := by decide
  have hfile : FileAt shortA.volume 2 l e shortA.content := hopen.file
  obtain rfl := hfile.chain.unique hchain hfile.ok.sound
  have hentry : (findName nameA (listing shortA.volume [2])).map (fun e => (e.pos, e.cluster)) =
      some (0, 3) := by decide
  have hfind : findName nameA (listing shortA.volume [2]) = some e := hopen.find
  rw [hfind] at hentry
  obtain ⟨hpos, hcluster⟩ := Prod.mk.inj (Option.some.inj hentry)
  exact ⟨e, hfile, ⟨by decide, rfl, by rw [hpos]; rfl⟩, hcluster.symm⟩

/-- A byte is appended to `A`. -/
theorem fat32_write_spliced_append :
    ∃ v' vp', vopWriteAt 8 shortA.volume vnodeA (fun _ => 67) 1 1 = some (v', vp', 1) ∧
      vp'.fileSize = 2 ∧ vopReadAt 8 v' vp' 5 0 = (2, [66, 67]) := by
  obtain ⟨e, hfile, hvp, hstart⟩ := fileAt_shortA
  have hfree : EnoughFree shortA.volume e.cluster 2 := by
    rw [← hstart]
    decide
  obtain ⟨v', vp', hwrite, hsize, hread, -⟩ := fat32_write_spliced hfile hvp hstart rfl
    (List.cons_ne_nil 66 []) (n := 1) one_ne_zero (by decide : 8 ≠ 0) (le_refl 1) (by decide) hfree
    fun _ => 67
  exact ⟨v', vp', hwrite, hsize, hread 5 0 (by decide)⟩

/-! ## Holes -/

/-- The bytes of the file from its old end up to the offset of a write behind it. -/
theorem Copied.read_hole (h : Copied v v' d l e vp' k bytes) (hsound : v.geo.Sound)
    (hframes : frames ≠ 0) {size : ℕ} (hsize : size < off) (hend : off ≤ vp'.fileSize)
    (hlt : off < 2 ^ 32) (hin : off ≤ k.length * v.geo.clusterSize) :
    (vopReadAt frames v' vp' (off - size) size).2 = bytes.slice size (off - size) := by
  have hcount : readCount vp'.fileSize (off - size) size = off - size := by
    rw [readCount_eq (by omega)]
    omega
  rw [h.chain.vopReadAt_eq h.nonempty (h.geo ▸ hsound) hframes (by omega) (m := off - size)
    (by rw [hcount, h.geo]; omega), h.bytes]

theorem slice_eq_zeros_iff {off n : ℕ} :
    bytes.slice off n = List.replicate n 0 ↔ ∀ i < n, bytes (off + i) = 0 := by
  simp [Bytes.slice, List.eq_replicate_iff]

/-- What the write does once the file has its clusters. -/
theorem GrownFile.writeBytes_cases (hg : GrownFile frames u w vp.startCluster k ext) (hk : k ≠ [])
    (hsound : u.geo.Sound) (src : Bytes) (m off endOffset : ℕ) :
    (frames = 0 ∨ (k ++ ext).length ≤ off / u.geo.clusterSize % 2 ^ 32) ∧
        (writeBytes frames w vp src m off endOffset).2.2 = -1 ∨
      (frames ≠ 0 ∧ off / u.geo.clusterSize % 2 ^ 32 < (k ++ ext).length) ∧
        (writeBytes frames w vp src m off endOffset).2.2 =
          asInt (min m (((k ++ ext).length - off / u.geo.clusterSize % 2 ^ 32) * u.geo.clusterSize -
            off % u.geo.clusterSize)) ∧
        (writeBytes frames w vp src m off endOffset).2.1 =
          if vp.fileSize < endOffset then { vp with fileSize := endOffset % 2 ^ 32 } else vp := by
  have hgeo : w.geo = u.geo := hg.keeps.geo
  have hwsound : w.geo.Sound := hgeo ▸ hsound
  rw [writeBytes, hgeo]
  generalize off / u.geo.clusterSize % 2 ^ 32 = q
  by_cases hq : q < (k ++ ext).length
  · rw [hg.chain.skipLinks_eq hwsound hq]
    by_cases hframes : frames = 0
    · exact .inl ⟨.inl hframes, by simp only [if_pos hframes]⟩
    · have hcount := ((hg.chain.dropAt hq).writeLoop_eq hwsound src 0
        (Nat.mod_lt off hwsound.clusterSize_pos) (le_refl m)).2
      rw [hgeo, List.length_drop] at hcount
      exact .inr ⟨⟨hframes, hq⟩, by simp only [if_neg hframes, hcount],
        by simp only [if_neg hframes]⟩
  · rw [hg.chain.skipLinks_none (by simp [hk]) (not_lt.mp hq)]
    exact .inl ⟨.inr (not_lt.mp hq), rfl⟩

section

variable (hb : Begun frames v u vp vp₁ k₀ k) (hg : GrownFile frames u w vp₁.startCluster k ext)
  (hwrite : writeBytes frames w vp₁ src n off endOffset = (v', vp', r)) (hr : 0 ≤ r)
  (hend : off ≤ vp'.fileSize)
include hb hg hwrite hr hend

/-- A write behind the end of the file that leaves the file longer than its offset did not give
up, and its offset has 32 bits. -/
theorem Begun.reached (hsound : v.geo.Sound) (hoff : vp.fileSize < off) :
    off < 2 ^ 32 ∧ off / v.geo.clusterSize < (k ++ ext).length ∧ frames ≠ 0 ∧
      vp' = if vp₁.fileSize < endOffset then
        { vp₁ with fileSize := endOffset % 2 ^ 32 } else vp₁ := by
  have hcases := hg.writeBytes_cases hb.nonempty (hb.keeps.geo ▸ hsound) src n off endOffset
  rw [hwrite, hb.keeps.geo] at hcases
  obtain ⟨⟨hframes, hreach⟩, -, hvp'⟩ := hcases.resolve_left fun hup => by
    have hneg : r = -1 := hup.2
    omega
  dsimp only at hvp'
  have hlt : off < 2 ^ 32 := by
    have hsize₁ : vp₁.fileSize = vp.fileSize := by rw [hb.vnode]
    rw [hvp'] at hend
    split_ifs at hend with hless
    · exact hend.trans_lt (Nat.mod_lt _ (by decide))
    · omega
  rw [Nat.mod_eq_of_lt ((Nat.div_le_self _ _).trans_lt hlt)] at hreach
  exact ⟨hlt, hreach, hframes, hvp'⟩

/-- The rest of a write behind the end of the file leaves a hole with what was in the chain. -/
theorem FileAt.hole_writeBytes (h : FileAt v d l e content) (hvp : VnodeOf vp d e.pos)
    (hstart : 2 ≤ vp.startCluster ∧ vp.startCluster = e.cluster ∨
      vp.startCluster < 2 ∧ e.cluster = 0) (hsize : vp.fileSize = content.length)
    (hoff : content.length < off) :
    (vopReadAt frames v' vp' (off - content.length) content.length).2 =
        List.replicate (off - content.length) 0 ↔
      ∀ i, content.length ≤ i → i < off → chainBytes v k₀ i = 0 := by
  have hsound := h.ok.sound
  obtain ⟨hlt, hreach, hframes, hvp'⟩ := hb.reached hg hwrite hr hend hsound (by omega)
  obtain ⟨v₂, hwrite', hcopied, -⟩ := h.writeBytes_effect hvp hstart hb hg hframes hlt hreach
    (n := n) rfl hvp' src
  obtain rfl := (Prod.mk.inj (hwrite'.symm.trans hwrite)).1
  have hin : off ≤ (k ++ ext).length * v.geo.clusterSize := by
    have hdivmod := Nat.div_add_mod off v.geo.clusterSize
    have hmod := Nat.mod_lt off hsound.clusterSize_pos
    have hmul : (off / v.geo.clusterSize + 1) * v.geo.clusterSize ≤
        (k ++ ext).length * v.geo.clusterSize := Nat.mul_le_mul_right _ hreach
    rw [Nat.add_mul, Nat.mul_comm (off / v.geo.clusterSize)] at hmul
    omega
  rw [hcopied.read_hole hsound hframes hoff hend hlt hin, slice_eq_zeros_iff]
  constructor
  · intro hzero i hlow hhigh
    have hi := hzero (i - content.length) (by omega)
    rwa [show content.length + (i - content.length) = i by omega, Bytes.copyIn_of_lt hhigh] at hi
  · intro hzero i hi
    rw [Bytes.copyIn_of_lt (by omega)]
    exact hzero _ (by omega) (by omega)

end

/-! ## Empty files that were looked up -/

/-- The root directory of a volume with a file begins with an entry. -/
theorem FileEntry.root_byte (h : FileEntry v d l e) (hk : v.Chain v.geo.rootCluster k) :
    chainBytes v k 0 ≠ 0 := by
  have hsound := h.ok.sound
  -- The root directory lists something, the file or a directory on the way to it.
  have hlists : ∀ {d : ℕ}, LiveDir v d → ∀ l e, v.Chain d l → e ∈ listing v l →
      ∃ e', e' ∈ listing v k := by
    intro d hd
    induction hd with
    | root =>
      intro l e hl he
      rw [hl.unique hk hsound] at he
      exact ⟨e, he⟩
    | @sub d' l' e' hd' hl' he' _ ih =>
      intro _ _ _ _
      exact ih l' e' hl' he'
  obtain ⟨e', he'⟩ := hlists h.live l e h.chain h.mem
  cases k with
  | nil => cases he'
  | cons c ks =>
    have hslots : dirSlots v (c :: ks) = direntAt (v.data c) 0 ::
        (dirSlots v (c :: ks)).tail := by
      have hzero : (dirSlots v (c :: ks))[0]? = some (direntAt (v.data c) 0) := by
        rw [getElem?_dirSlots hsound, Nat.zero_div, Nat.zero_mod]
        rfl
      exact List.eq_cons_of_mem_head? (by rw [List.head?_eq_getElem?, hzero]; rfl)
    rw [chainBytes_first hsound.clusterSize_pos]
    intro hend
    rw [listing, hslots, reported_end (by exact hend)] at he'
    cases he'

/-- An update of an entry leaves the first byte of every cluster as it is. -/
theorem updateDirent_first (hsound : v.geo.Sound) (hx : v.geo.IsData x)
    (h : updateDirent frames v vp = some v') :
    v'.geo = v.geo ∧ v'.fat = v.fat ∧ v'.data x 0 = v.data x 0 := by
  rw [updateDirent] at h
  split_ifs at h
  rw [patchDirent] at h
  split at h
  · cases h
  rename_i c _
  split_ifs at h
  by_cases hc : c < 2
  · simp only [readCluster, if_pos hc] at h
    cases h
  simp only [readCluster, writeCluster, if_neg hc, Option.some.injEq] at h
  subst h
  refine ⟨rfl, fat_putCluster hsound _, ?_⟩
  have hpos := hsound.clusterSize_pos
  simp only [Volume.data, hx, hpos, and_self, if_true, Nat.add_zero]
  rcases Nat.lt_trichotomy x c with hlt | rfl | hgt
  · have hapart := clusterOffset_lt (g := v.geo) hx.1 hlt
    exact Bytes.copyIn_of_lt (by omega)
  · rw [Bytes.copyIn_of_mem le_rfl (by omega), Nat.sub_self]
    simp only [Bytes.putLe]
    rfl
  · have hapart := clusterOffset_lt (g := v.geo) (by omega) hgt
    exact Bytes.copyIn_of_le (by omega)

/-- A write through the vnode that `lookup` makes of an empty file goes to the root directory, and
what is in front of the offset is the root directory. -/
theorem FileEntry.hole_root (h : FileEntry v d l e) (hroot : vp.startCluster = v.geo.rootCluster)
    (hb : Begun frames v u vp vp₁ k₀ k) (hg : GrownFile frames u w vp₁.startCluster k ext)
    (hsize : vp.fileSize = 0) (hoff : 0 < off)
    (hwrite : writeBytes frames w vp₁ src n off endOffset = (v', vp', r)) (hr : 0 ≤ r)
    (hend : off ≤ vp'.fileSize) :
    (chainBytes v k₀ 0 ≠ 0) ∧ ∃ b ∈ (vopReadAt frames v' vp' off 0).2, b ≠ 0 := by
  have hsound := h.ok.sound
  have hpos := hsound.clusterSize_pos
  obtain ⟨hlt, hreach, hframes, hvp'⟩ := hb.reached hg hwrite hr hend hsound (by omega)
  obtain ⟨rfl, rfl, rfl⟩ : u = v ∧ vp₁ = vp ∧ k = k₀ := by
    rcases hb.start with hsame | ⟨-, hless, -⟩
    · exact hsame
    · have := hsound.root.1
      omega
  have hbyte := h.root_byte (hroot ▸ hb.chain)
  refine ⟨hbyte, ?_⟩
  have hwgeo : w.geo = u.geo := hg.keeps.geo
  have hwsound : w.geo.Sound := hwgeo ▸ hsound
  have hskip : off / w.geo.clusterSize % 2 ^ 32 = off / w.geo.clusterSize :=
    Nat.mod_eq_of_lt ((Nat.div_le_self _ _).trans_lt hlt)
  have hdiv : off / w.geo.clusterSize < (k ++ ext).length := by rw [hwgeo]; exact hreach
  obtain ⟨w', hloop, honly, hcopy⟩ := hg.chain.writeAt_eq hwsound src hdiv (n := n) rfl
  rw [hg.chainBytes hb.chain hframes] at hcopy
  obtain ⟨c, ks, rfl⟩ := List.exists_cons_of_ne_nil hb.nonempty
  have hc : w'.geo.IsData c := by
    rw [honly.geo]
    exact hg.chain.isData (by simp)
  have hw'geo : w'.geo = u.geo := honly.geo.trans hwgeo
  -- The first byte of the root directory, before and after the entry is updated.
  have hfirst : w'.data c 0 = chainBytes u (c :: ks) 0 := by
    rw [← chainBytes_first (v := w') (by rw [hw'geo]; exact hpos) c (ks ++ ext), ← List.cons_append,
      hcopy, Bytes.copyIn_of_lt hoff]
  obtain ⟨hgeo, hfat, hdata⟩ : v'.geo = w'.geo ∧ v'.fat = w'.fat ∧ v'.data c 0 = w'.data c 0 := by
    have hv' : (updateDirent frames w' vp').getD w' = v' := by
      rw [writeBytes, hskip, hg.chain.skipLinks_eq hwsound hdiv] at hwrite
      simp only [if_neg hframes, hloop, ← hvp', Prod.mk.injEq] at hwrite
      exact hwrite.1
    cases hupdate : updateDirent frames w' vp' with
    | none =>
      rw [hupdate, Option.getD_none] at hv'
      subst hv'
      exact ⟨rfl, rfl, rfl⟩
    | some v₂ =>
      rw [hupdate, Option.getD_some] at hv'
      subst hv'
      exact updateDirent_first (honly.geo ▸ hwsound) hc hupdate
  have hchain : v'.Chain vp'.startCluster (c :: ks ++ ext) := by
    have hstart : vp'.startCluster = vp₁.startCluster := by rw [hvp']; split_ifs <;> rfl
    rw [hstart]
    exact (honly.chain hg.chain).congr hgeo fun _ _ => by rw [hfat]
  have hv'geo : v'.geo = u.geo := hgeo.trans hw'geo
  have hone : 1 ≤ min (readCount vp'.fileSize off 0)
      ((c :: ks ++ ext).length * v'.geo.clusterSize - 0) := by
    have hcount : readCount vp'.fileSize off 0 = off := by
      rw [readCount_eq (by omega)]
      omega
    have hmul : 1 * v'.geo.clusterSize ≤ (c :: ks ++ ext).length * v'.geo.clusterSize :=
      Nat.mul_le_mul_right _ (by simp)
    rw [hv'geo] at hmul ⊢
    omega
  rw [hchain.vopReadAt_eq (by simp) (hv'geo ▸ hsound) hframes (by decide) rfl]
  obtain ⟨m, hm⟩ : ∃ m, min (readCount vp'.fileSize off 0)
      ((c :: ks ++ ext).length * v'.geo.clusterSize - 0) = m + 1 := ⟨_, (Nat.sub_add_cancel hone).symm⟩
  refine ⟨chainBytes v' (c :: ks ++ ext) 0, ?_, ?_⟩
  · rw [hm]
    exact List.mem_map.mpr ⟨0, by simp, rfl⟩
  · rw [List.cons_append, chainBytes_first (by rw [hv'geo]; exact hpos), hdata, hfirst]
    exact hbyte

/-- The start cluster of the vnode is as `create` or `lookup` made it, or that of the entry. -/
def StartOf (v : Volume) (vp : Vnode) (e : Live) : Prop :=
  (2 ≤ vp.startCluster ∧ vp.startCluster = e.cluster ∨ vp.startCluster < 2 ∧ e.cluster = 0) ∨
    e.cluster = 0 ∧ vp.startCluster = v.geo.rootCluster

/-- After a successful write behind the end of a file that leaves the file at least as long as its
offset, the bytes between the old end and the offset are zero if and only if those of the clusters
that the vnode had before are. -/
theorem FileAt.hole_zeros_iff (h : FileAt v d l e content) (hvp : VnodeOf vp d e.pos)
    (hstart : StartOf v vp e) (hsize : vp.fileSize = content.length)
    (hk : v.FileClusters vp.startCluster k) (hn : n ≠ 0) (hoff : content.length < off) (src : Bytes)
    (hwrite : vopWriteAt frames v vp src n off = some (v', vp', r)) (hr : 0 ≤ r)
    (hend : off ≤ vp'.fileSize) :
    (vopReadAt frames v' vp' (off - content.length) content.length).2 =
        List.replicate (off - content.length) 0 ↔
      ∀ i, content.length ≤ i → i < off → chainBytes v k i = 0 := by
  have hsound := h.ok.sound
  have hcases := hk.vopWriteAt_cases hsound h.ok.hint hvp.file hn src frames off
  rw [hwrite] at hcases
  generalize hres : some (v', vp', r) = res at hcases
  -- Whether the volume is full or not, the rest of the write is the same.
  obtain ⟨u, w, vp₁, k₁, ext, m, endOffset, hb, hg, hrest⟩ : ∃ u w vp₁ k₁ ext m endOffset,
      Begun frames v u vp vp₁ k k₁ ∧ GrownFile frames u w vp₁.startCluster k₁ ext ∧
        writeBytes frames w vp₁ src m off endOffset = (v', vp', r) := by
    cases hcases with
    | noCluster => exact absurd hr (by cases hres; decide)
    | noRoom => exact absurd hr (by cases hres; decide)
    | copies hb hg => exact ⟨_, _, _, _, _, _, _, hb, hg, (Option.some.inj hres).symm⟩
  rcases hstart with hstart | ⟨hzero, hroot⟩
  · exact h.hole_writeBytes hb hg hrest hr hend hvp hstart hsize hoff
  · have hnil : content = [] := by
      rcases h.bytes with ⟨-, hnil⟩ | ⟨k', hk', hne, -⟩
      · exact hnil
      · have := (hk'.isData_start hne).1
        omega
    subst hnil
    obtain ⟨hbyte, b, hb', hne⟩ := h.hole_root hroot hb hg hsize hoff hrest hr hend
    exact iff_of_false (fun hall => hne ((List.eq_replicate_iff.mp hall).2 b hb'))
      fun hall => hbyte (hall 0 le_rfl hoff)

/-- A file keeps its place when the bytes behind its contents change. -/
theorem FileAt.putCluster (h : FileAt v d l e content) (hk : v.Chain e.cluster k) (hx : x ∈ k)
    (buf : Bytes) (hbytes : (chainBytes (v.putCluster x buf) k).slice 0 content.length = content) :
    FileAt (v.putCluster x buf) d l e content := by
  have hsound := h.ok.sound
  have hi := h.ok.intact
  have ho := onlyCluster_putCluster hsound (hk.isData hx) buf
  have hne := List.ne_nil_of_mem hx
  have hf := h.fileChain hk hne
  have hkeeps : Keeps v (v.putCluster x buf) k :=
    (ho.keeps h.ok.hint).mono fun z hz => .inl (List.mem_singleton.mp hz ▸ hx)
  have hchain : (v.putCluster x buf).Chain e.cluster (k ++ []) := by
    rw [List.append_nil]
    exact hk.onlyCluster ho
  obtain ⟨hun, -⟩ := hi.growFile hsound hf hkeeps hchain (by simp)
  obtain ⟨hl, hdata⟩ := hkeeps.chain d l h.chain (hi.dir_disjoint h.live h.chain hf)
  have hlisting : listing (v.putCluster x buf) l = listing v l := by
    rw [listing, dirSlots_congr hkeeps.geo hdata]
    rfl
  refine ⟨⟨h.ok.of_geo hun.intact rfl hun.hint, (hun.sameTree.liveDir d).mpr h.live, hl, ?_, h.file,
    h.notDot⟩, h.size, ?_⟩
  · rw [hlisting]
    exact h.mem
  · rcases h.bytes with ⟨hzero, -⟩ | ⟨k', hk', -, hlength, -⟩
    · have := (hk.isData_start hne).1
      omega
    · obtain rfl := hk'.unique hk hsound
      exact .inr ⟨_, hk.onlyCluster ho, hne, hlength, hbytes⟩

/-- The volume with `A`, where the cluster of `A` has something behind the contents. -/
def slackVolume : Volume :=
  shortA.volume.putCluster 3 (Function.update (clusterBuf shortA.volume 3) 1 7)

/-- What is behind the contents of a file is read after a write further behind. -/
theorem fat32_hole_shows_slack :
    (∃ e, FileAt slackVolume 2 [2] e [66] ∧ VnodeOf vnodeA 2 e.pos ∧
      vnodeA.startCluster = e.cluster) ∧
    ∃ v' vp', vopWriteAt 8 slackVolume vnodeA (fun _ => 67) 1 3 = some (v', vp', 1) ∧
      vopReadAt 8 v' vp' 2 1 = (2, [7, 0]) := by
  constructor
  · obtain ⟨e, hfile, hvp, hstart⟩ := fileAt_shortA
    have hk : shortA.volume.Chain e.cluster [3] := by
      rw [← hstart]
      decide
    exact ⟨e, hfile.putCluster hk (by simp) _ (by decide), hvp, hstart⟩
  · have hcall : (vopWriteAt 8 slackVolume vnodeA (fun _ => 67) 1 3).map
        (fun r => (r.2.2, vopReadAt 8 r.1 r.2.1 2 1)) = some (1, 2, [7, 0]) := by decide
    obtain ⟨⟨v', vp', r⟩, hwrite, hpair⟩ := Option.map_eq_some_iff.mp hcall
    obtain ⟨rfl, hread⟩ := Prod.mk.inj hpair
    exact ⟨v', vp', hwrite, hread⟩

end Tomahawk.Fat32
