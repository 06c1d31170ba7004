import Tomahawk.Fat32.Integrity

/-!
# Reading and writing a file

A file of an intact volume with its contents: the entry has the length, and the chain of its
start cluster has the bytes. A read through a vnode whose fields are those of the entry returns
bytes of the contents, and a write through such a vnode replaces some of them or appends to them.
-/

namespace Tomahawk.Fat32

open Tomahawk.Lib

variable {v v' : Volume} {c d p n off frames : ℕ} {l : List ℕ} {e : Live} {vp : Vnode}
  {content : List UInt8} {b : Bytes} {k k₀ : List ℕ} {u : Volume}

/-- The bytes of the chain from `c` on begin with the contents. A file without contents may have
no chain. -/
def HasBytes (v : Volume) (c : ℕ) (content : List UInt8) : Prop :=
  c = 0 ∧ content = [] ∨ ∃ k, v.Chain c k ∧ k ≠ [] ∧
    content.length ≤ k.length * v.geo.clusterSize ∧
      (chainBytes v k).slice 0 content.length = content

/-- The entry `e` of the directory `d` is that of a file. -/
structure FileEntry (v : Volume) (d : ℕ) (l : List ℕ) (e : Live) : Prop where
  ok : VolumeOk v
  live : LiveDir v d
  chain : v.Chain d l
  mem : e ∈ listing v l
  file : isDirAttr (dirAttr e.de) = false
  notDot : ¬ e.IsDot

/-- The entry `e` of the directory `d` is that of a file with these contents. -/
structure FileAt (v : Volume) (d : ℕ) (l : List ℕ) (e : Live) (content : List UInt8) : Prop
    extends FileEntry v d l e where
  size : dirFileSize e.de = content.length
  bytes : HasBytes v e.cluster content

/-- The vnode is one of the file in the slot `p` of the directory `d`. -/
structure VnodeOf (vp : Vnode) (d p : ℕ) : Prop where
  file : vp.isDir = false
  dir : vp.dirCluster = d
  offset : vp.dirEntryOffset = p * 32

theorem FileAt.length_lt (h : FileAt v d l e content) : content.length < 2 ^ 32 := by
  rw [← h.size]
  exact Bytes.le_lt e.de 28 4

/-! ## Reading -/

/-- A part of bytes of which the first ones are known. -/
theorem slice_eq_of_slice_zero (h : b.slice 0 content.length = content)
    (hn : off + n ≤ content.length) : b.slice off n = (content.drop off).take n := by
  rw [← h, Bytes.drop_slice, Bytes.take_slice, Nat.zero_add, min_eq_left (by omega)]

/-- A read of `n` bytes returns bytes of the contents, if the vnode has the length that matters
for it and, when there is something to read, the start cluster of the file. -/
theorem FileAt.vopReadAt_eq (h : FileAt v d l e content) (hframes : frames ≠ 0)
    (hcount : readCount vp.fileSize n off = min n (content.length - off))
    (hstart : vp.startCluster = e.cluster ∨ min n (content.length - off) = 0) :
    vopReadAt frames v vp n off =
      (asInt (min n (content.length - off)), (content.drop off).take n) := by
  have htake : (content.drop off).take n =
      (content.drop off).take (min n (content.length - off)) := by
    rw [← List.length_drop, List.take_eq_take_min]
  rw [htake]
  by_cases hzero : min n (content.length - off) = 0
  · rw [vopReadAt, hcount, hzero]
    rfl
  have hlt := h.length_lt
  obtain ⟨k, hk, hne, hlength, hbytes⟩ := h.bytes.resolve_left fun hnil => by
    rw [hnil.2, List.length_nil] at hzero
    omega
  rw [← hstart.resolve_right hzero] at hk
  rw [hk.vopReadAt_eq hne h.ok.sound hframes (by omega) (m := min n (content.length - off))
    (by omega), slice_eq_of_slice_zero hbytes (by omega)]

/-! ## Writing -/

/-- The contents after a write. -/
def overwrite (content : List UInt8) (off : ℕ) (bytes : List UInt8) : List UInt8 :=
  content.take off ++ bytes ++ content.drop (off + bytes.length)

theorem length_overwrite {bytes : List UInt8} (hoff : off ≤ content.length) :
    (overwrite content off bytes).length = max content.length (off + bytes.length) := by
  rw [overwrite, List.length_append, List.length_append, List.length_take, List.length_drop]
  omega

/-- A copy to bytes of which the first ones are known. -/
theorem slice_copyIn {src : Bytes} (h : b.slice 0 content.length = content)
    (hoff : off ≤ content.length) :
    (b.copyIn off n src 0).slice 0 (max content.length (off + n)) =
      overwrite content off (src.slice 0 n) := by
  have hbehind : (b.copyIn off n src 0).slice (off + n) (content.length - (off + n)) =
      b.slice (off + n) (content.length - (off + n)) :=
    Bytes.slice_congr fun i hi => Bytes.copyIn_of_le (by omega)
  rw [show max content.length (off + n) = off + n + (content.length - (off + n)) by omega,
    ← Bytes.slice_append, Bytes.slice_copyIn, Nat.zero_add, hbehind, overwrite, Bytes.slice_length]
  conv_rhs => rw [← h]
  rw [Bytes.take_slice, Bytes.drop_slice, Nat.zero_add, min_eq_left hoff]

/-- There are free clusters for the end of a write. -/
def EnoughFree (v : Volume) (start endOffset : ℕ) : Prop :=
  (endOffset + v.geo.clusterSize - 1) / v.geo.clusterSize ≤
    chainLength v start + (freeClusters v).card

instance (v : Volume) (start endOffset : ℕ) : Decidable (EnoughFree v start endOffset) :=
  inferInstanceAs (Decidable (_ ≤ _))

/-- The fields of the vnode are good for a write: its start cluster is that of the entry, or both
have none, and the length after the write will be right. -/
structure WriteFresh (vp : Vnode) (e : Live) (length endOffset : ℕ) : Prop where
  start : 2 ≤ vp.startCluster ∧ vp.startCluster = e.cluster ∨ vp.startCluster < 2 ∧ e.cluster = 0
  size : max vp.fileSize endOffset = max length endOffset

/-- The slot of the file is a slot for a write. -/
theorem FileEntry.fileSlot (h : FileEntry v d l e) : FileSlot (dirSlots v l) e.pos :=
  .inl ⟨e, h.mem, rfl, h.file⟩

/-- The clusters of the file, with its contents. -/
theorem FileAt.clusters (h : FileAt v d l e content)
    (hstart : 2 ≤ vp.startCluster ∧ vp.startCluster = e.cluster ∨
      vp.startCluster < 2 ∧ e.cluster = 0) :
    ∃ k, v.FileClusters vp.startCluster k ∧ content.length ≤ k.length * v.geo.clusterSize ∧
      (chainBytes v k).slice 0 content.length = content := by
  rcases hstart with ⟨htwo, heq⟩ | ⟨htwo, heq⟩
  · obtain ⟨k, hk, hne, hlength, hbytes⟩ := h.bytes.resolve_left fun hnil => by omega
    exact ⟨k, .inr ⟨heq ▸ hk, hne⟩, hlength, hbytes⟩
  · rcases h.bytes with ⟨-, rfl⟩ | ⟨k, hk, hne, -⟩
    · exact ⟨[], .inl ⟨htwo, rfl⟩, by simp, rfl⟩
    · have := (hk.isData_start hne).1
      omega

/-- The chain of a file belongs to its entry. -/
theorem FileAt.fileChain (h : FileAt v d l e content) (hk : v.Chain e.cluster k) (hne : k ≠ []) :
    FileChain v d e.pos e.cluster k := by
  have htwo := (hk.isData_start hne).1
  have howns : Owns v (.entry d e.pos) e.cluster :=
    .entry h.live h.chain h.mem h.notDot (by omega)
  exact ⟨hk, hne, .inl ⟨howns, h.ok.intact.not_liveDir h.ok.sound h.chain h.fileSlot howns⟩⟩

/-- The first cluster of the file belongs to it, or to nothing if it is new. -/
theorem FileAt.begun {vp' : Vnode} (h : FileAt v d l e content)
    (hstart : 2 ≤ vp.startCluster ∧ vp.startCluster = e.cluster ∨
      vp.startCluster < 2 ∧ e.cluster = 0) (hb : Begun frames v u vp vp' k₀ k) :
    Untouched v u ∧ FileChain u d e.pos vp'.startCluster k := by
  refine hb.owned h.ok fun hne => ?_
  rcases hstart with ⟨-, heq⟩ | ⟨hlt, -⟩
  · have hk : v.Chain vp.startCluster k₀ := by
      rcases hb.start with ⟨rfl, rfl, rfl⟩ | ⟨rfl, -⟩
      · exact hb.chain
      · exact absurd rfl hne
    rw [heq] at hk ⊢
    exact h.fileChain hk hne
  · rcases hb.start with ⟨rfl, rfl, rfl⟩ | ⟨rfl, -⟩
    · have := (hb.chain.isData_start hb.nonempty).1
      omega
    · exact absurd rfl hne

/-- The entry `e` was replaced by `e'`, which has the same place and name. -/
structure EntrySet (v v' : Volume) (l : List ℕ) (e e' : Live) : Prop where
  pos : e'.pos = e.pos
  name : e'.name = e.name
  split : ∃ es₁ es₂, listing v l = es₁ ++ e :: es₂ ∧ listing v' l = es₁ ++ e' :: es₂ ∧
    ∀ e₀ ∈ es₁, e₀.pos ≠ e.pos

/-- The size and the start cluster of `vp` were stored in the entry `e`, and nothing else
changed. -/
structure Entered (v v' : Volume) (d : ℕ) (l : List ℕ) (e : Live) (vp : Vnode) : Prop where
  entry : FileEntry v' d l (e.setFile vp.fileSize vp.startCluster)
  set : EntrySet v v' l e (e.setFile vp.fileSize vp.startCluster)
  cluster : (e.setFile vp.fileSize vp.startCluster).cluster = vp.startCluster
  geo : v'.geo = v.geo
  fat : v'.fat = v.fat
  data : ∀ x i, ¬ InSlot v l e.pos x i → v'.data x i = v.data x i

/-- The entry of the file after the size and the start cluster were stored. -/
theorem FileEntry.updateDirent_spec (h : FileEntry v d l e) {vp : Vnode} (hvp : VnodeOf vp d e.pos)
    (hk : v.Chain vp.startCluster k) (hne : k ≠ [])
    (hapart : ∀ o c' l, o ≠ .entry d e.pos → Owns v o c' → v.Chain c' l → l.Disjoint k)
    (hframes : frames ≠ 0) :
    ∃ v', updateDirent frames v vp = some v' ∧ Entered v v' d l e vp := by
  have hsound := h.ok.sound
  have hi := h.ok.intact
  have hstart := hsound.lt_of_isData (hk.isData_start hne)
  obtain ⟨v', x, hupdate, hi', hx, ho, hslots⟩ := hi.updateDirent (l := l) (p := e.pos) vp hsound
    (by rw [hvp.dir]; exact h.live) (by rw [hvp.dir]; exact h.chain) hvp.offset h.fileSlot hk hne
    (by rw [hvp.dir]; exact hapart) hframes
  obtain ⟨es₁, es₂, hlist, hlist', hother⟩ := reported_setFile h.mem vp.fileSize vp.startCluster
  rw [← hslots] at hlist'
  refine ⟨v', hupdate, ⟨⟨h.ok.of_geo hi' ho.geo (ho.hintOk h.ok.hint), ?_, h.chain.onlyCluster ho,
    ?_, ?_, ?_⟩, ⟨rfl, rfl, es₁, es₂, hlist, hlist', fun e₀ he₀ => hother e₀ (by simp [he₀])⟩,
    direntCluster_setFile vp.fileSize hstart e.de, ho.geo, ho.fat, fun x i hout => ?_⟩⟩
  · -- The entry is that of a file, so no directory is lost.
    refine h.live.patch hi hsound h.live h.chain hx ho fun e₀ he₀ hsub => ?_
    have he₀' : e₀ ∈ es₁ ++ e :: es₂ := hlist ▸ he₀
    rw [listing, hlist']
    rcases List.mem_append.mp he₀' with hmem | hmem
    · simp [hmem]
    · rcases List.mem_cons.mp hmem with rfl | hmem
      · have hdir := hsub.isDir
        rw [h.file] at hdir
        exact absurd hdir (by decide)
      · simp [hmem]
  · rw [listing, hlist']
    simp
  · have hattr : dirAttr (e.setFile vp.fileSize vp.startCluster).de = dirAttr e.de :=
      dirAttr_setFile _ _ _
    exact h.file
  · have hname : dirName (e.setFile vp.fileSize vp.startCluster).de = dirName e.de :=
      dirName_setFile _ _ _
    exact h.notDot
  · have hpos : e.pos < l.length * v.geo.perCluster := by
      have := pos_of_mem_reported h.mem
      rw [← length_dirSlots]
      omega
    have htwo : ¬ vp.dirCluster < 2 := fun hlt => by
      rw [updateDirent, if_pos hlt] at hupdate
      cases hupdate
    rw [updateDirent, if_neg htwo, hvp.dir, hvp.offset] at hupdate
    exact h.chain.data_patchDirent hsound hframes
      (slotPatch_setFile vp.fileSize vp.startCluster) hpos hupdate hout

/-- The contents of a file whose entry says their length and where they begin. -/
theorem FileEntry.fileAt_setFile {size c : ℕ} {new : List UInt8}
    (h : FileEntry v d l (e.setFile size c)) (hcluster : (e.setFile size c).cluster = c)
    (hsize : size = new.length) (hlt : new.length < 2 ^ 32) (hk : v.Chain c k) (hne : k ≠ [])
    (hlength : new.length ≤ k.length * v.geo.clusterSize)
    (hbytes : (chainBytes v k).slice 0 new.length = new) : FileAt v d l (e.setFile size c) new := by
  have hfileSize : dirFileSize (e.setFile size c).de = size := dirFileSize_setFile (by omega) _ _
  refine ⟨h, by rw [hfileSize, hsize], ?_⟩
  rw [hcluster]
  exact .inr ⟨k, hk, hne, hlength, hbytes⟩

/-- The file has the clusters `k` with these bytes and the entry that `vp` says. Of the chains of
others only the slot of the entry changed. -/
structure Copied (v v' : Volume) (d : ℕ) (l : List ℕ) (e : Live) (vp : Vnode) (k : List ℕ)
    (bytes : Bytes) : Prop where
  entry : FileEntry v' d l (e.setFile vp.fileSize vp.startCluster)
  vnode : VnodeOf vp d e.pos
  set : EntrySet v v' l e (e.setFile vp.fileSize vp.startCluster)
  cluster : (e.setFile vp.fileSize vp.startCluster).cluster = vp.startCluster
  chain : v'.Chain vp.startCluster k
  nonempty : k ≠ []
  bytes : chainBytes v' k = bytes
  geo : v'.geo = v.geo
  others : ∀ o c l', o ≠ .entry d e.pos → Owns v o c → v.Chain c l' →
    v'.Chain c l' ∧ ∀ x ∈ l', ∀ i, ¬ InSlot v l e.pos x i → v'.data x i = v.data x i

section

variable (h : FileAt v d l e content) (hvp : VnodeOf vp d e.pos)
include h hvp

/-- The rest of a write to a file whose chain has its clusters: the bytes are copied as far as the
chain goes, and the entry is updated. Nothing else changes, whoever owns it. -/
theorem FileAt.writeBytes_effect {w : Volume} {vp₁ vp₂ : Vnode} {ext : List ℕ}
    (hstart : 2 ≤ vp.startCluster ∧ vp.startCluster = e.cluster ∨
      vp.startCluster < 2 ∧ e.cluster = 0) (hb : Begun frames v u vp vp₁ k₀ k)
    (hg : GrownFile frames u w vp₁.startCluster k ext) (hframes : frames ≠ 0) {m endOffset : ℕ}
    (hoff : off < 2 ^ 32) (hdiv : off / v.geo.clusterSize < (k ++ ext).length)
    (hm : m = min n ((k ++ ext).length * v.geo.clusterSize - off))
    (hvp₂ : vp₂ = if vp₁.fileSize < endOffset then
      { vp₁ with fileSize := endOffset % 2 ^ 32 } else vp₁) (src : Bytes) :
    ∃ v', writeBytes frames w vp₁ src n off endOffset = (v', vp₂, asInt m) ∧
      Copied v v' d l e vp₂ (k ++ ext) ((chainBytes v k₀).copyIn off m src 0) ∧
      v'.fat = w.fat ∧ ∀ y ∉ k ++ ext, y ∉ l → v'.data y = w.data y := by
  obtain ⟨hun₁, hchain₁⟩ := h.begun hstart hb
  have hugeo : u.geo = v.geo := hun₁.geo
  have husound : u.geo.Sound := hugeo ▸ h.ok.sound
  have hwgeo : w.geo = v.geo := hg.keeps.geo.trans hugeo
  have hwsound : w.geo.Sound := hwgeo ▸ h.ok.sound
  have hdiv' : off / w.geo.clusterSize < (k ++ ext).length := by rw [hwgeo]; exact hdiv
  obtain ⟨w', hloop, honly, hcopy⟩ := hg.chain.writeAt_eq hwsound src hdiv' (n := n) (m := m)
    (by rw [hwgeo]; exact hm)
  rw [hg.chainBytes hb.chain hframes, hb.bytes hframes] at hcopy
  -- What the copy leaves of the tree, as seen from the volume with the first cluster.
  have hkeeps : Keeps u w' k := hg.keeps.trans (honly.keeps hg.keeps.hint) fun y hy => by
    rcases List.mem_append.mp hy with hmem | hmem
    · exact .inl hmem
    · exact .inr (hg.free y hmem)
  have hchain' : w'.Chain vp₁.startCluster (k ++ ext) := honly.chain hg.chain
  obtain ⟨hun, hapart⟩ := hun₁.intact.growFile husound hchain₁ hkeeps hchain' hg.free
  have hun' := hun₁.trans hun
  -- The chains of others are as before, and so are the directory and the entry.
  have hothers : ∀ o c l', o ≠ .entry d e.pos → Owns v o c → v.Chain c l' →
      w'.Chain c l' ∧ ∀ x ∈ l', w'.data x = v.data x := by
    intro o c l' hne ho hl'
    obtain ⟨hlu, hdata⟩ := hb.keeps.chain c l' hl' (List.disjoint_nil_right _)
    obtain ⟨hlw, hdata'⟩ := hkeeps.chain c l' hlu
      (hchain₁.apart hun₁.intact hne ((hun₁.sameTree.owns o c).mpr ho) hlu)
    exact ⟨hlw, fun x hx => (hdata' x hx).trans (hdata x hx)⟩
  obtain ⟨od, hod, hodne⟩ := h.live.owns
  obtain ⟨hlw, hdata⟩ := hothers od d l (hodne e.pos) hod h.chain
  have hslots : dirSlots w' l = dirSlots v l := dirSlots_congr hun'.geo hdata
  have hlisting : listing w' l = listing v l := by
    rw [listing, hslots]
    rfl
  have hentry : FileEntry w' d l e := by
    refine ⟨h.ok.of_geo hun'.intact hun'.geo hun'.hint, (hun'.sameTree.liveDir d).mpr h.live, hlw,
      ?_, h.file, h.notDot⟩
    rw [hlisting]
    exact h.mem
  have hstart₂ : vp₂.startCluster = vp₁.startCluster := by rw [hvp₂]; split_ifs <;> rfl
  have hvnode₂ : VnodeOf vp₂ d e.pos := by
    rw [hvp₂, hb.vnode]
    split_ifs
    · exact ⟨hvp.file, hvp.dir, hvp.offset⟩
    · exact ⟨hvp.file, hvp.dir, hvp.offset⟩
  obtain ⟨v', hupdate, hset⟩ := hentry.updateDirent_spec hvnode₂ (by rw [hstart₂]; exact hchain')
    (by simp [hb.nonempty]) hapart hframes
  have hgeo : v'.geo = v.geo := hset.geo.trans hun'.geo
  have hslot : ∀ x i, InSlot w' l e.pos x i ↔ InSlot v l e.pos x i := by
    intro x i
    rw [InSlot, InSlot, hun'.geo]
  have hkept : ∀ {c l'}, w'.Chain c l' → v'.Chain c l' := by
    intro c l' hl'
    exact hl'.congr hset.geo fun _ _ => by rw [hset.fat]
  refine ⟨v', ?_, ⟨hset.entry, hvnode₂, ?_, hset.cluster, ?_, by simp [hb.nonempty], ?_, hgeo, ?_⟩,
    hset.fat.trans honly.fat, fun y hy hyl => ?_⟩
  · rw [writeBytes, hwgeo, Nat.mod_eq_of_lt ((Nat.div_le_self _ _).trans_lt hoff),
      hg.chain.skipLinks_eq hwsound hdiv]
    simp only [if_neg hframes, ← hwgeo, hloop, ← hvp₂, hupdate, Option.getD_some]
  · obtain ⟨es₁, es₂, hlist, hlist', hother⟩ := hset.set.split
    exact ⟨hset.set.pos, hset.set.name, es₁, es₂, hlisting ▸ hlist, hlist', hother⟩
  · rw [hstart₂]
    exact hkept hchain'
  · rw [← hcopy]
    refine chainBytes_congr hset.geo fun x hx => funext fun i => hset.data x i fun hin => ?_
    have hmem : x ∈ l := List.mem_of_getElem? hin.1
    exact hapart od d l (hodne e.pos) ((hun'.sameTree.owns od d).mpr hod) hlw hmem hx
  · intro o c l' hne ho hl'
    obtain ⟨hlw', hdata'⟩ := hothers o c l' hne ho hl'
    refine ⟨hkept hlw', fun x hx i hout => ?_⟩
    rw [hset.data x i fun hin => hout ((hslot x i).mp hin), hdata' x hx]
  · rw [← honly.data y hy]
    exact funext fun i => hset.data y i fun hin => hyl (List.mem_of_getElem? hin.1)

section

variable (hn : n ≠ 0) (hframes : frames ≠ 0) (hoff : off ≤ content.length) (hend : off + n < 2 ^ 32)
  (hfresh : WriteFresh vp e content.length (off + n)) (hfree : EnoughFree v e.cluster (off + n))
  (src : Bytes)
include hn hframes hoff hend hfresh hfree src

/-- A write replaces bytes of the contents or appends to them, and leaves the vnode up to date. -/
theorem FileAt.vopWriteAt_copied :
    ∃ v' vp' k bytes, vopWriteAt frames v vp src n off = some (v', vp', asInt n) ∧
      Copied v v' d l e vp' k bytes ∧
      vp'.fileSize = (overwrite content off (src.slice 0 n)).length ∧
      FileAt v' d l (e.setFile vp'.fileSize vp'.startCluster)
        (overwrite content off (src.slice 0 n)) := by
  have hsound := h.ok.sound
  have hpos := hsound.clusterSize_pos
  have hpage := hsound.page
  have hlt := h.length_lt
  obtain ⟨k₀, hk₀, hlength, hbytes⟩ := h.clusters hfresh.start
  have hsmall : off + n ≤ 2 ^ 31 * v.geo.clusterSize := by
    have := hsound.twoSlots
    omega
  obtain ⟨hlow, -⟩ := clustersNeeded_bounds hpos hpage hsmall
  have hfree' : clustersNeeded v.geo.clusterSize off n ≤ fileRoom v k₀ := by
    have hsame : chainLength v e.cluster = chainLength v vp.startCluster := by
      rcases hfresh.start with ⟨-, heq⟩ | ⟨hless, heq⟩
      · rw [heq]
      · rw [heq, chainLength, chainLength, chainLengthLoop, chainLengthLoop, if_neg (by omega),
          if_neg (by omega)]
    rw [clustersNeeded_eq hpos hpage hsmall, fileRoom, ← hk₀.chainLength_eq hsound, ← hsame]
    exact hfree
  have hcases := hk₀.vopWriteAt_cases hsound h.ok.hint hvp.file hn src frames off
  generalize vopWriteAt frames v vp src n off = res at hcases
  cases hcases with
  | noCluster hnil hempty =>
    -- There is a free cluster, so the allocation does not fail.
    rw [fileRoom, hnil, hempty, Finset.card_empty, List.length_nil] at hfree'
    rw [Nat.le_zero.mp hfree'] at hlow
    omega
  | noRoom _ _ hlt => omega
  | @copies u w vp₁ k ext m endOffset hb hg hcase =>
    obtain ⟨-, hmax, rfl, rfl⟩ := hcase.resolve_right fun hmore => by omega
    have hroom : off + m ≤ (k ++ ext).length * v.geo.clusterSize :=
      hlow.trans (Nat.mul_le_mul_right _ (by omega))
    have hdiv := div_clusterSize_lt hroom (by omega)
    rw [Nat.mod_eq_of_lt (a := off + m) (b := 2 ^ 64) (by omega)]
    obtain ⟨vp₂, hvp₂⟩ : ∃ vp₂, vp₂ = if vp₁.fileSize < off + m then
        { vp₁ with fileSize := (off + m) % 2 ^ 32 } else vp₁ := ⟨_, rfl⟩
    obtain ⟨v', hwrite, hcopied, -⟩ := h.writeBytes_effect hvp hfresh.start hb hg hframes
      (by omega) hdiv (n := m) (show m = _ by omega) hvp₂ src
    -- The new contents.
    have hlen : (overwrite content off (src.slice 0 m)).length = max content.length (off + m) := by
      rw [length_overwrite hoff, Bytes.slice_length]
    have hsize : vp₂.fileSize = (overwrite content off (src.slice 0 m)).length := by
      have hsize₁ : vp₁.fileSize = vp.fileSize := by rw [hb.vnode]
      rw [hlen, ← hfresh.size, hvp₂]
      split_ifs with hless
      · change (off + m) % 2 ^ 32 = _
        omega
      · omega
    have hfits : max content.length (off + m) ≤ (k ++ ext).length * v.geo.clusterSize := by
      have hmul : k₀.length * v.geo.clusterSize ≤ (k ++ ext).length * v.geo.clusterSize :=
        Nat.mul_le_mul_right _ (by rw [List.length_append, hb.length]; omega)
      omega
    refine ⟨v', vp₂, k ++ ext, _, congrArg some hwrite, hcopied, hsize,
      hcopied.entry.fileAt_setFile hcopied.cluster hsize (by rw [hlen]; omega) hcopied.chain
        hcopied.nonempty (by rw [hlen, hcopied.geo]; exact hfits) ?_⟩
    rw [hlen, hcopied.bytes]
    exact slice_copyIn hbytes hoff

/-- What a write makes of the file, its entry and its vnode. -/
theorem FileAt.vopWriteAt_spec :
    ∃ v' vp' e', vopWriteAt frames v vp src n off = some (v', vp', asInt n) ∧
      FileAt v' d l e' (overwrite content off (src.slice 0 n)) ∧ EntrySet v v' l e e' ∧
      VnodeOf vp' d e.pos ∧ vp'.startCluster = e'.cluster ∧
      vp'.fileSize = (overwrite content off (src.slice 0 n)).length := by
  obtain ⟨v', vp', k, bytes, hwrite, hcopied, hsize, hat⟩ :=
    h.vopWriteAt_copied hvp hn hframes hoff hend hfresh hfree src
  exact ⟨v', vp', _, hwrite, hat, hcopied.set, hcopied.vnode, hcopied.cluster.symm, hsize⟩

end

end

end Tomahawk.Fat32
