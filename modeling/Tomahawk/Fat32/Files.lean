import Tomahawk.Fat32.Entries

/-!
# Files of a FAT32 volume

`read_at` and `write_at` of `fat32.c`. A write allocates the first cluster of a file that has
none, extends the chain by as many clusters as the end of the write needs, copies the bytes
cluster by cluster, and stores the size and the start cluster of the vnode in the directory
entry of the file.
-/

namespace Tomahawk.Fat32

open Function Tomahawk.Lib

/-! ## Reading -/

/-- The loop of `fat32_vop_read_at`: the bytes it copies, `n` at most. Each step copies at least
one byte, so `n` steps are enough. -/
def readLoop (v : Volume) : ℕ → ℕ → ℕ → ℕ → List UInt8
  | 0, _, _, _ => []
  | fuel + 1, cur, off, n =>
    if 0 < n ∧ 2 ≤ cur ∧ ¬ isEoc cur then
      let toCopy := min n (v.geo.clusterSize - off)
      (clusterBuf v cur).slice off toCopy ++ readLoop v fuel (fatRead v cur) 0 (n - toCopy)
    else []

/-- The number of bytes that a read of `nbyte` bytes asks for. The sum has 64 bits. -/
def readCount (fileSize nbyte offset : ℕ) : ℕ :=
  if fileSize ≤ offset then 0
  else if fileSize < (offset + nbyte) % 2 ^ 64 then fileSize - offset else nbyte

/-- `fat32_vop_read_at`: the result, and the bytes that were copied. -/
def vopReadAt (frames : ℕ) (v : Volume) (vp : Vnode) (nbyte offset : ℕ) : ℤ × List UInt8 :=
  let nbyte := readCount vp.fileSize nbyte offset
  if nbyte = 0 then (0, [])
  else
    match skipLinks v (offset / v.geo.clusterSize % 2 ^ 32) vp.startCluster with
    | none => (0, [])
    | some cur =>
      if frames = 0 then (-1, [])
      else
        let bytes := readLoop v nbyte cur (offset % v.geo.clusterSize) nbyte
        (asInt bytes.length, bytes)

variable {v : Volume} {nbyte offset : ℕ}

theorem length_readLoop {fuel cur off n : ℕ} :
    (readLoop v fuel cur off n).length ≤ n := by
  induction fuel generalizing cur off n with
  | zero => exact Nat.zero_le _
  | succ fuel ih =>
    unfold readLoop
    split_ifs
    · have hrest := @ih (fatRead v cur) 0 (n - min n (v.geo.clusterSize - off))
      simp only [List.length_append, Bytes.slice_length]
      omega
    · exact Nat.zero_le _

theorem readCount_eq {fileSize : ℕ} (h : offset + nbyte < 2 ^ 64) :
    readCount fileSize nbyte offset = min nbyte (fileSize - offset) := by
  unfold readCount
  split_ifs <;> omega

/-- A read copies no more than it was asked for, and no more than the file has behind the offset. -/
theorem length_vopReadAt {frames : ℕ} {vp : Vnode} (h : offset + nbyte < 2 ^ 64) :
    (vopReadAt frames v vp nbyte offset).2.length ≤ min nbyte (vp.fileSize - offset) := by
  unfold vopReadAt
  dsimp only
  split
  · exact Nat.zero_le _
  split
  · exact Nat.zero_le _
  split
  · exact Nat.zero_le _
  · exact length_readLoop.trans (readCount_eq h).le

/-! ## Writing -/

/-- Zero a new cluster, if there is a frame for the zeros. -/
def zeroFresh (frames : ℕ) (v : Volume) (cluster : ℕ) : Volume :=
  if frames = 0 then v else zeroCluster v cluster

/-- The first cluster of a file that has none. -/
def firstCluster (frames : ℕ) (v : Volume) (vp : Vnode) : Volume × Option Vnode :=
  if 2 ≤ vp.startCluster then (v, some vp)
  else
    let r := allocCluster v
    if r.2 = 0 then (r.1, none)
    else (zeroFresh frames r.1 r.2, some { vp with startCluster := r.2 })

/-- The loop that extends a chain of `i` clusters with the last one `last` by `n` more. When
there is no free cluster it stops with the number of clusters so far. -/
def extendLoop (frames : ℕ) : ℕ → Volume → ℕ → ℕ → Volume × Option ℕ
  | 0, v, _, _ => (v, none)
  | n + 1, v, last, i =>
    let r := extendChain v last
    if r.2 = 0 then (r.1, some i)
    else extendLoop frames n (zeroFresh frames r.1 r.2) r.2 (i + 1)

/-- Extend the chain to `needed` clusters. -/
def growFile (frames : ℕ) (v : Volume) (start needed : ℕ) : Option (Volume × Option ℕ) :=
  let len := chainLength v start
  if len < needed then
    match lastCluster v start with
    | none => none
    | some last => some (extendLoop frames (needed - len) v last len)
  else some (v, none)

/-- The loop of `fat32_vop_write_at`, with `n` bytes of `src` left from `from_` on: the volume
and the number of bytes that were copied. -/
def writeLoop (src : Bytes) : ℕ → Volume → ℕ → ℕ → ℕ → ℕ → Volume × ℕ
  | 0, v, _, _, _, _ => (v, 0)
  | fuel + 1, v, cur, off, from_, n =>
    if 0 < n ∧ 2 ≤ cur ∧ ¬ isEoc cur then
      let toCopy := min n (v.geo.clusterSize - off)
      let v' := v.putCluster cur ((clusterBuf v cur).copyIn off toCopy src from_)
      let r := writeLoop src fuel v' (fatRead v' cur) 0 (from_ + toCopy) (n - toCopy)
      (r.1, toCopy + r.2)
    else (v, 0)

/-- What is left to do when the chain has its clusters: copy the bytes and update the entry. -/
def writeBytes (frames : ℕ) (v : Volume) (vp : Vnode) (src : Bytes) (nbyte offset endOffset : ℕ) :
    Volume × Vnode × ℤ :=
  match skipLinks v (offset / v.geo.clusterSize % 2 ^ 32) vp.startCluster with
  | none => (v, vp, -1)
  | some cur =>
    if frames = 0 then (v, vp, -1)
    else
      let r := writeLoop src nbyte v cur (offset % v.geo.clusterSize) 0 nbyte
      let vp :=
        if vp.fileSize < endOffset then { vp with fileSize := endOffset % 2 ^ 32 } else vp
      ((updateDirent frames r.1 vp).getD r.1, vp, asInt r.2)

/-- `fat32_vop_write_at`: the volume, the vnode with its cached fields, and the result. -/
def vopWriteAt (frames : ℕ) (v : Volume) (vp : Vnode) (src : Bytes) (nbyte offset : ℕ) :
    Option (Volume × Vnode × ℤ) :=
  if vp.isDir then some (v, vp, -1)
  else if nbyte = 0 then some (v, vp, 0)
  else
    match firstCluster frames v vp with
    | (v, none) => some (v, vp, -1)
    | (v, some vp) =>
      let endOffset := (offset + nbyte) % 2 ^ 64
      let needed := (endOffset + v.geo.clusterSize - 1) % 2 ^ 64 / v.geo.clusterSize % 2 ^ 32
      match growFile frames v vp.startCluster needed with
      | none => none
      | some (v, none) => some (writeBytes frames v vp src nbyte offset endOffset)
      | some (v, some i) =>
        -- The disk is full: as many bytes as fit are written.
        let maxEnd := i * v.geo.clusterSize
        if maxEnd ≤ offset then some (v, vp, -1)
        else some (writeBytes frames v vp src (maxEnd - offset) offset maxEnd)

/-! ## Which clusters a write touches -/

variable {v v' : Volume} {c cur x : ℕ} {l : List ℕ} {frames : ℕ}

/-- Zeroing a new cluster, or leaving it as it was. -/
theorem onlyCluster_zeroFresh (hsound : v.geo.Sound) (hx : v.geo.IsData x) (frames : ℕ) :
    OnlyCluster v (zeroFresh frames v x) x := by
  unfold zeroFresh
  split_ifs
  · exact ⟨rfl, fun _ _ => rfl, rfl, rfl⟩
  · rw [zeroCluster_eq hx]
    exact onlyCluster_putCluster hsound hx _

theorem data_zeroFresh (hx : v.geo.IsData x) (hframes : frames ≠ 0) :
    (zeroFresh frames v x).data x = fun _ => 0 := by
  rw [zeroFresh, if_neg hframes, zeroCluster_eq hx, data_putCluster hx, update_self]
  funext k
  split_ifs <;> rfl

/-- The copy loop writes clusters of the chain. -/
theorem Volume.Chain.writeLoop_only (h : v.Chain cur l) (hsound : v.geo.Sound) (src : Bytes)
    (fuel off from_ n : ℕ) : OnlyClusters v (writeLoop src fuel v cur off from_ n).1 l := by
  induction fuel generalizing v cur l off from_ n with
  | zero => exact .refl v l
  | succ fuel ih =>
    rw [writeLoop]
    split_ifs with hgo
    · cases l with
      | nil => exact absurd h hgo.2.2
      | cons y ys =>
        obtain ⟨rfl, hy, hys⟩ := h
        have ho := onlyCluster_putCluster hsound hy ((clusterBuf v cur).copyIn off
          (min n (v.geo.clusterSize - off)) src from_)
        simp only
        generalize v.putCluster cur ((clusterBuf v cur).copyIn off
          (min n (v.geo.clusterSize - off)) src from_) = w at ho ⊢
        have hread : fatRead w cur = v.fat cur := by
          rw [Fat32.fatRead_eq (by rw [ho.geo]; exact hy.2), ho.fat]
        rw [hread]
        have hchain : w.Chain (v.fat cur) ys := Volume.Chain.onlyCluster hys ho
        exact ho.trans (ih hchain (ho.geo ▸ hsound) 0 _ _)
    · exact .refl v l

/-- The chain from `c` on was extended by clusters that were free. -/
structure GrownFile (frames : ℕ) (v v' : Volume) (c : ℕ) (l ext : List ℕ) : Prop where
  chain : v'.Chain c (l ++ ext)
  free : ∀ x ∈ ext, v.fat x = 0
  fat : ∀ x, v.fat x = 0 → x ∉ ext → v'.fat x = 0
  keeps : Keeps v v' l
  data : ∀ x ∉ ext, v'.data x = v.data x
  zero : frames ≠ 0 → ∀ x ∈ ext, v'.data x = fun _ => 0

theorem GrownFile.refl (h : v.Chain c l) (hhint : v.HintOk) (frames : ℕ) :
    GrownFile frames v v c l [] :=
  ⟨by rw [List.append_nil]; exact h, by simp, fun _ h _ => h, .refl hhint l, fun _ _ => rfl,
    by simp⟩

/-- The loop extends the chain by as many clusters as it was asked for, or until no cluster is
free. -/
theorem Volume.Chain.extendLoop_spec (h : v.Chain c l) (hl : l ≠ []) (hsound : v.geo.Sound)
    (hhint : v.HintOk) (frames n i : ℕ) :
    ∃ ext, GrownFile frames v (extendLoop frames n v (l.getLast hl) i).1 c l ext ∧
      ((extendLoop frames n v (l.getLast hl) i).2 = none ∧ ext.length = n ∨
        (extendLoop frames n v (l.getLast hl) i).2 = some (i + ext.length) ∧ ext.length < n ∧
          ∀ y, v.geo.IsData y → (extendLoop frames n v (l.getLast hl) i).1.fat y ≠ 0) := by
  induction n generalizing v l i with
  | zero => exact ⟨[], .refl h hhint frames, .inl ⟨rfl, rfl⟩⟩
  | succ n ih =>
    rw [extendLoop]
    rcases extendChain_cases hsound hhint (h.isData (List.getLast_mem hl)) with
      ⟨heq, hfull⟩ | ⟨w, y, heq, hne, he⟩
    · simp only [heq, if_true]
      exact ⟨[], .refl h hhint frames, .inr ⟨rfl, by simp, hfull⟩⟩
    · simp only [heq, if_neg hne]
      have hgeo : w.geo = v.geo := he.geo
      have hsound' : w.geo.Sound := hgeo ▸ hsound
      have hdata : w.geo.IsData y := hgeo ▸ he.isData
      have ho := onlyCluster_zeroFresh hsound' hdata frames
      have hzero : frames ≠ 0 → (zeroFresh frames w y).data y = fun _ => 0 :=
        data_zeroFresh hdata
      have hchain := (h.extended hl hsound he).onlyCluster ho
      generalize zeroFresh frames w y = u at ho hzero hchain ⊢
      have hugeo : u.geo = v.geo := ho.geo.trans hgeo
      have hufat : u.fat = update (update v.fat y clusterEoc) (l.getLast hl) y :=
        ho.fat.trans he.fat
      -- The rest of the loop extends the longer chain, whose last cluster is the new one.
      have hlast : (l ++ [y]).getLast (by simp) = y := by simp
      obtain ⟨ext, hgrown, hresult⟩ := ih hchain (by simp) (hugeo ▸ hsound)
        (ho.hintOk he.hint) (i + 1)
      rw [hlast] at hgrown hresult
      have hfree : ∀ z, u.fat z = 0 → v.fat z = 0 := by
        intro z hz
        rw [hufat] at hz
        by_cases hzl : z = l.getLast hl
        · rw [hzl, update_self] at hz
          omega
        · rw [update_of_ne hzl] at hz
          by_cases hzy : z = y
          · rw [hzy]
            exact he.free
          · rwa [update_of_ne hzy] at hz
      have hext : ∀ z ∈ ext, z ≠ y := by
        rintro z hz rfl
        have hzero := hgrown.free z hz
        exact hchain.fat_ne_zero (x := z) (by simp) hzero
      refine ⟨y :: ext, ⟨?_, ?_, ?_, ?_, ?_, ?_⟩, ?_⟩
      · rw [List.append_cons]
        exact hgrown.chain
      · intro z hz
        rcases List.mem_cons.mp hz with rfl | hz
        · exact he.free
        · exact hfree z (hgrown.free z hz)
      · intro z hz hnot
        have hzl : z ≠ l.getLast hl := by
          rintro rfl
          exact h.fat_ne_zero (List.getLast_mem hl) hz
        refine hgrown.fat z ?_ fun hmem => hnot (by simp [hmem])
        rw [hufat, update_of_ne hzl, update_of_ne fun heq => hnot (by simp [heq])]
        exact hz
      · refine (he.keeps_chain ho).trans hgrown.keeps fun z hz => ?_
        rcases List.mem_append.mp hz with hz | hz
        · exact .inl hz
        · rw [List.mem_singleton.mp hz]
          exact .inr he.free
      · intro z hz
        rw [hgrown.data z fun hmem => hz (by simp [hmem]), ho.data z fun heq => hz (by simp [heq]),
          he.data]
      · intro hframes z hz
        rcases List.mem_cons.mp hz with rfl | hz
        · rw [hgrown.data z fun hmem => hext z hmem rfl]
          exact hzero hframes
        · exact hgrown.zero hframes z hz
      · rcases hresult with ⟨hnone, hlength⟩ | ⟨hsome, hlength, hfull⟩
        · exact .inl ⟨hnone, by simp [hlength]⟩
        · refine .inr ⟨?_, by simpa using hlength, fun z hz => hfull z (hugeo ▸ hz)⟩
          rw [hsome, List.length_cons]
          congr 1
          omega

/-- The chain of a file has the clusters that are needed, or the volume is full. -/
theorem Volume.Chain.growFile_spec (h : v.Chain c l) (hl : l ≠ []) (hsound : v.geo.Sound)
    (hhint : v.HintOk) (frames needed : ℕ) :
    ∃ v' r ext, growFile frames v c needed = some (v', r) ∧ GrownFile frames v v' c l ext ∧
      (r = none ∧ needed ≤ (l ++ ext).length ∧ (l ++ ext).length ≤ max needed l.length ∨
        r = some (l ++ ext).length ∧ (l ++ ext).length < needed ∧
          ∀ y, v.geo.IsData y → v'.fat y ≠ 0) := by
  rw [growFile, h.chainLength_eq hsound.entriesOk]
  by_cases hlt : l.length < needed
  · simp only [if_pos hlt, h.lastCluster_eq hl hsound]
    obtain ⟨ext, hgrown, hresult⟩ := h.extendLoop_spec hl hsound hhint frames
      (needed - l.length) l.length
    refine ⟨_, _, ext, rfl, hgrown, ?_⟩
    rw [List.length_append]
    rcases hresult with ⟨hnone, hlength⟩ | ⟨hsome, hlength, hfull⟩
    · exact .inl ⟨hnone, by omega, by omega⟩
    · exact .inr ⟨hsome, by omega, hfull⟩
  · rw [if_neg hlt]
    exact ⟨v, none, [], rfl, .refl h hhint frames, .inl ⟨rfl, by simp; omega, by simp⟩⟩

end Tomahawk.Fat32
