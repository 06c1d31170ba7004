import Tomahawk.Fat32.WriteEffect

/-!
# Writes at the limits

Offsets and lengths have 64 bits, but sizes of files, numbers of clusters and results have 32.
What a write does is worked out here for every offset and length: how many clusters the file gets,
when the call gives up, and which size it stores. A write that finds too few free clusters for its
offset has taken all of them by then.
-/

namespace Tomahawk.Fat32

open Tomahawk.Lib

variable {v v' : Volume} {n off frames : ℕ} {k : List ℕ} {vp vp' : Vnode} {r : ℤ} {c : ℕ}

/-- The clusters of the file when the bytes are copied. -/
def writeReach (v : Volume) (k : List ℕ) (nbyte offset : ℕ) : ℕ :=
  if clustersNeeded v.geo.clusterSize offset nbyte ≤ fileRoom v k then
    max (clustersNeeded v.geo.clusterSize offset nbyte) (max 1 k.length)
  else fileRoom v k

/-- Where the write ends: at the end of its bytes, or at the end of the last cluster that can be
had. -/
def writeEnd (v : Volume) (k : List ℕ) (nbyte offset : ℕ) : ℕ :=
  if clustersNeeded v.geo.clusterSize offset nbyte ≤ fileRoom v k then offset + nbyte
  else fileRoom v k * v.geo.clusterSize

/-- The bytes that are copied. The number of the first cluster has 32 bits. -/
def writeCount (v : Volume) (k : List ℕ) (nbyte offset : ℕ) : ℕ :=
  min (if clustersNeeded v.geo.clusterSize offset nbyte ≤ fileRoom v k then nbyte
      else fileRoom v k * v.geo.clusterSize - offset)
    ((writeReach v k nbyte offset - offset / v.geo.clusterSize % 2 ^ 32) * v.geo.clusterSize -
      offset % v.geo.clusterSize)

/-- The write returns -1: there is no frame or no first cluster, or the file cannot get the cluster
of the offset, whose number has 32 bits. -/
def GivesUp (frames : ℕ) (v : Volume) (k : List ℕ) (nbyte offset : ℕ) : Prop :=
  frames = 0 ∨ fileRoom v k = 0 ∨
    fileRoom v k < clustersNeeded v.geo.clusterSize offset nbyte ∧
      fileRoom v k * v.geo.clusterSize ≤ offset ∨
    writeReach v k nbyte offset ≤ offset / v.geo.clusterSize % 2 ^ 32

/-- A file has no more clusters than the volume. -/
theorem Volume.FileClusters.fileRoom_le (h : v.FileClusters c k) (hsound : v.geo.Sound) :
    fileRoom v k ≤ v.geo.totalDataClusters := by
  obtain ⟨hdata, hnodup⟩ : (∀ x ∈ k, v.geo.IsData x ∧ v.fat x ≠ 0) ∧ k.Nodup := by
    rcases h with ⟨-, rfl⟩ | ⟨hk, -⟩
    · simp
    · exact ⟨fun x hx => ⟨hk.isData hx, hk.fat_ne_zero hx⟩, hk.nodup hsound⟩
  have hdisj : Disjoint k.toFinset (freeClusters v) := by
    refine Finset.disjoint_left.mpr fun x hx hfree => ?_
    exact (hdata x (List.mem_toFinset.mp hx)).2 (mem_freeClusters.mp hfree).2
  have hsub : k.toFinset ∪ freeClusters v ⊆ Finset.Ico 2 (v.geo.totalDataClusters + 2) := by
    intro x hx
    rcases Finset.mem_union.mp hx with hmem | hmem
    · exact Finset.mem_Ico.mpr (hdata x (List.mem_toFinset.mp hmem)).1
    · exact Finset.mem_Ico.mpr (mem_freeClusters.mp hmem).1
  have hcard := Finset.card_le_card hsub
  rw [Finset.card_union_of_disjoint hdisj, List.toFinset_card_of_nodup hnodup, Nat.card_Ico] at hcard
  exact hcard

/-- A write gives up, or it returns the number of its bytes that fit in the clusters of the file
and stores where it ends if that is behind the end of the file. -/
theorem Volume.FileClusters.vopWriteAt_size (h : v.FileClusters vp.startCluster k)
    (hsound : v.geo.Sound) (hhint : v.HintOk) (hfile : vp.isDir = false) (hn : n ≠ 0)
    (src : Bytes) (frames off : ℕ) :
    ∃ v' vp' r, vopWriteAt frames v vp src n off = some (v', vp', r) ∧
      (GivesUp frames v k n off ∧ r = -1 ∨
        ¬ GivesUp frames v k n off ∧
        r = asInt (writeCount v k n off) ∧
        vp'.fileSize = if vp.fileSize < writeEnd v k n off % 2 ^ 64 then
          writeEnd v k n off % 2 ^ 64 % 2 ^ 32 else vp.fileSize) := by
  have hcases := h.vopWriteAt_cases hsound hhint hfile hn src frames off
  generalize vopWriteAt frames v vp src n off = res at hcases
  cases hcases with
  | noCluster hnil hempty =>
    refine ⟨v, vp, -1, rfl, .inl ⟨.inr (.inl ?_), rfl⟩⟩
    rw [fileRoom, hempty, Finset.card_empty, hnil]
    rfl
  | noRoom _ _ hlt hfull => exact ⟨_, _, -1, rfl, .inl ⟨.inr (.inr (.inl ⟨hlt, hfull⟩)), rfl⟩⟩
  | @copies u w vp₁ k₁ ext m endOffset hb hg hcase =>
    have hugeo : u.geo = v.geo := hb.keeps.geo
    have hone : fileRoom v k ≠ 0 := by
      have hroom : k₁.length + (freeClusters u).card = fileRoom v k := hb.room
      have := List.length_pos_iff.mpr hb.nonempty
      omega
    -- Whether the volume is full or not, the rest of the write is the same.
    obtain ⟨hreach, hspace, hm, hend⟩ : writeReach v k n off = (k₁ ++ ext).length ∧
        ¬ (fileRoom v k < clustersNeeded v.geo.clusterSize off n ∧
          fileRoom v k * v.geo.clusterSize ≤ off) ∧
        m = (if clustersNeeded v.geo.clusterSize off n ≤ fileRoom v k then n
          else fileRoom v k * v.geo.clusterSize - off) ∧
        endOffset = writeEnd v k n off % 2 ^ 64 := by
      rcases hcase with ⟨hle, hmax, rfl, rfl⟩ | ⟨hlt, hall, hfull, rfl, rfl⟩
      · rw [writeReach, writeEnd, if_pos hle, if_pos hle, if_pos hle, hmax, hb.length]
        exact ⟨rfl, by omega, rfl, rfl⟩
      · rw [writeReach, writeEnd, if_neg (by omega), if_neg (by omega), if_neg (by omega)]
        refine ⟨hall.symm, fun hmore => hfull hmore.2, rfl, (Nat.mod_eq_of_lt ?_).symm⟩
        have hmost := h.fileRoom_le hsound
        have hmarks := hsound.clusters_le
        calc fileRoom v k * v.geo.clusterSize ≤ 2 ^ 28 * 4096 :=
              Nat.mul_le_mul (by omega) hsound.page
          _ < 2 ^ 64 := by decide
    have hrest := hg.writeBytes_cases hb.nonempty (hugeo ▸ hsound) src m off endOffset
    have hsize₁ : vp₁.fileSize = vp.fileSize := by rw [hb.vnode]
    rw [hugeo, ← hreach, hsize₁, hm, hend] at hrest
    rw [hm, hend]
    refine ⟨_, _, _, rfl, ?_⟩
    rcases hrest with ⟨hup, hr⟩ | ⟨⟨hframes, hq⟩, hr, hsize⟩
    · refine .inl ⟨?_, hr⟩
      rcases hup with hframes | hq
      · exact .inl hframes
      · exact .inr (.inr (.inr hq))
    · refine .inr ⟨?_, hr, (congrArg Vnode.fileSize hsize).trans (by split_ifs <;> simp [hsize₁])⟩
      rintro (hzero | hzero | hmore | hq')
      · exact hframes hzero
      · exact hone hzero
      · exact hspace hmore
      · omega

/-! ## Holes -/

/-- After a successful write behind the end of a file, the range between the old end and the offset
reads as zeros if and only if the clusters that the vnode had before hold only zeros there, and the
file is then at least as long as the offset: the end of the write is kept in 32 bits. -/
theorem fat32_hole_zero_iff {d : ℕ} {l : List ℕ} {e : Live} {content : List UInt8}
    (h : FileAt v d l e content) (hvp : VnodeOf vp d e.pos) (hstart : StartOf v vp e)
    (hsize : vp.fileSize = content.length) (hk : v.FileClusters vp.startCluster k) (hn : n ≠ 0)
    (hoff : content.length < off) (hlt : off < 2 ^ 64) (src : Bytes)
    (hwrite : vopWriteAt frames v vp src n off = some (v', vp', r)) (hr : 0 ≤ r) :
    (vopReadAt frames v' vp' (off - content.length) content.length).2 =
        List.replicate (off - content.length) 0 ↔
      (∀ i, content.length ≤ i → i < off → chainBytes v k i = 0) ∧
        off ≤ writeEnd v k n off % 2 ^ 32 := by
  obtain ⟨v₁, vp₁, r₁, hwrite', hcases⟩ :=
    hk.vopWriteAt_size h.ok.sound h.ok.hint hvp.file hn src frames off
  obtain ⟨rfl, rfl, rfl⟩ : v₁ = v' ∧ vp₁ = vp' ∧ r₁ = r := by
    simpa using hwrite'.symm.trans hwrite
  obtain ⟨-, -, hend⟩ := hcases.resolve_left fun hup => by
    omega
  have hfits : off ≤ writeEnd v k n off % 2 ^ 32 ↔ off ≤ vp₁.fileSize := by
    rw [hend]
    split_ifs <;> omega
  rw [hfits]
  constructor
  · intro hall
    have hlong : off ≤ vp₁.fileSize := by
      have hread : (vopReadAt frames v₁ vp₁ _ _).2.length ≤ _ := length_vopReadAt
        (show content.length + (off - content.length) < 2 ^ 64 by omega)
      rw [hall, List.length_replicate] at hread
      omega
    exact ⟨(h.hole_zeros_iff hvp hstart hsize hk hn hoff src hwrite hr hlong).mp hall, hlong⟩
  · rintro ⟨hzero, hlong⟩
    exact (h.hole_zeros_iff hvp hstart hsize hk hn hoff src hwrite hr hlong).mpr hzero

/-- The rest of the cluster of `A` is clear, so there are zeros in front of a byte at offset 3. -/
theorem fat32_hole_zero_shortA :
    ∃ v' vp' r, vopWriteAt 8 shortA.volume vnodeA (fun _ => 67) 1 3 = some (v', vp', r) ∧
      (vopReadAt 8 v' vp' 2 1).2 = [0, 0] := by
  obtain ⟨e, hfile, hvp, hstart⟩ := fileAt_shortA
  have hcall : (vopWriteAt 8 shortA.volume vnodeA (fun _ => 67) 1 3).map (·.2.2) = some 1 := by
    decide
  obtain ⟨⟨v', vp', r⟩, hwrite, hr⟩ := Option.map_eq_some_iff.mp hcall
  have hzero : ∀ i < 3, 1 ≤ i → chainBytes shortA.volume [3] i = 0 := by decide
  refine ⟨v', vp', r, hwrite, ?_⟩
  exact (fat32_hole_zero_iff hfile hvp (.inl (.inl ⟨by decide, hstart⟩)) rfl (k := [3]) (by decide)
    one_ne_zero (by decide) (by decide) _ hwrite (by simp only at hr; omega)).mpr
      ⟨fun i hlow hhigh => hzero i hhigh hlow, by decide⟩

/-! ## Sizes -/

/-- The bytes from an offset up to the end of a cluster. -/
theorem clusters_behind (a off cs : ℕ) : (a - off / cs) * cs - off % cs = a * cs - off := by
  have hdivmod := Nat.div_add_mod off cs
  rw [Nat.sub_mul, Nat.mul_comm (off / cs)]
  omega

/-- A negative `int` is what becomes of a count of at least `2 ^ 31` that has 32 bits. -/
theorem lt_of_asInt_nonneg {m : ℕ} (hm : m < 2 ^ 32) (h : 0 ≤ asInt m) : m < 2 ^ 31 := by
  by_contra hge
  have hneg : asInt m = m - 2 ^ 32 := by
    unfold asInt
    rw [Int.bmod_def, Int.emod_eq_of_lt (by omega) (by omega)]
    omega
  omega

/-- A write that does not give up ends behind its offset. -/
theorem lt_writeEnd (hn : n ≠ 0) (hup : ¬ GivesUp frames v k n off) :
    off < writeEnd v k n off := by
  unfold writeEnd
  split_ifs with hle
  · omega
  · by_contra hge
    exact hup (.inr (.inr (.inl ⟨by omega, by omega⟩)))

/-- A write whose offset has 32 bits reaches its end. -/
theorem written_eq (hsound : v.geo.Sound) (hn : n ≠ 0) (hup : ¬ GivesUp frames v k n off)
    (hoff : off < 2 ^ 32) (hend : writeEnd v k n off = off + n → n < 2 ^ 32) :
    writeCount v k n off = writeEnd v k n off - off := by
  have htwo := hsound.twoSlots
  rw [writeCount, Nat.mod_eq_of_lt ((Nat.div_le_self _ _).trans_lt hoff), clusters_behind]
  unfold writeReach writeEnd at *
  split_ifs at * with hle
  · obtain ⟨hlow, -⟩ := clustersNeeded_bounds hsound.clusterSize_pos hsound.page
      (show off + n ≤ 2 ^ 31 * v.geo.clusterSize by omega)
    have hmul := Nat.mul_le_mul_right v.geo.clusterSize
      (le_max_left (clustersNeeded v.geo.clusterSize off n) (max 1 k.length))
    omega
  · omega

/-- On a full volume less is written than was asked for. -/
theorem toWrite_le (off : ℕ) (hsound : v.geo.Sound)
    (hroom : fileRoom v k ≤ v.geo.totalDataClusters) (hn : n < 2 ^ 31) :
    (if clustersNeeded v.geo.clusterSize off n ≤ fileRoom v k then n
      else fileRoom v k * v.geo.clusterSize - off) ≤ n := by
  split_ifs with hle
  · exact le_rfl
  have hmarks := hsound.clusters_le
  have hmost := Nat.mul_le_mul_right v.geo.clusterSize (show fileRoom v k ≤ 2 ^ 28 by omega)
  by_contra hlong
  obtain ⟨-, hhigh⟩ := clustersNeeded_bounds (n := n) hsound.clusterSize_pos hsound.page
    (show off + n ≤ 2 ^ 31 * v.geo.clusterSize by omega)
  have hmul := Nat.mul_le_mul_right v.geo.clusterSize (not_le.mp hle)
  rw [Nat.succ_mul] at hmul
  omega

/-- The size after a write that returned a count is the larger one of the old size and the end of
the bytes that were written. -/
def SizeKept (frames : ℕ) (v : Volume) (vp : Vnode) (src : Bytes) (n off : ℕ) : Prop :=
  ∀ v' vp' r, vopWriteAt frames v vp src n off = some (v', vp', r) → 0 ≤ r →
    (vp'.fileSize : ℤ) = max (vp.fileSize : ℤ) (off + r)

/-- An empty write is not behind the end of the file, and another one gives up or has an end of 32
bits. -/
def EndFits (frames : ℕ) (v : Volume) (vp : Vnode) (k : List ℕ) (n off : ℕ) : Prop :=
  if n = 0 then off ≤ vp.fileSize
  else GivesUp frames v k n off ∨ writeEnd v k n off < 2 ^ 32

theorem sizeKept_of_endFits (hsound : v.geo.Sound) (hhint : v.HintOk) (hfile : vp.isDir = false)
    (hk : v.FileClusters vp.startCluster k) (hfits : EndFits frames v vp k n off) (src : Bytes) :
    SizeKept frames v vp src n off := by
  intro v' vp' r hwrite hr
  unfold EndFits at hfits
  by_cases hn : n = 0
  · rw [if_pos hn] at hfits
    rw [vopWriteAt, if_neg (by simp [hfile]), if_pos hn] at hwrite
    obtain ⟨-, rfl, rfl⟩ : v = v' ∧ vp = vp' ∧ 0 = r := by simpa using hwrite
    omega
  rw [if_neg hn] at hfits
  obtain ⟨w, vp₁, r₁, hcall, hcases⟩ := hk.vopWriteAt_size hsound hhint hfile hn src
    frames off
  obtain ⟨rfl, rfl, rfl⟩ : w = v' ∧ vp₁ = vp' ∧ r₁ = r := by
    simpa using hcall.symm.trans hwrite
  rcases hcases with ⟨-, rfl⟩ | ⟨hup, hcount, hsize⟩
  · omega
  have hend := hfits.resolve_left hup
  have hless := lt_writeEnd hn hup
  rw [written_eq hsound hn hup (by omega) (by omega)] at hcount
  rw [hcount] at hr ⊢
  rw [asInt_of_lt (lt_of_asInt_nonneg (by omega) hr), hsize]
  split_ifs <;> omega

theorem endFits_of_sizeKept (hsound : v.geo.Sound) (hhint : v.HintOk) (hfile : vp.isDir = false)
    (hk : v.FileClusters vp.startCluster k) (hsize : vp.fileSize < 2 ^ 32) (hn31 : n < 2 ^ 31)
    {src : Bytes} (hkept : SizeKept frames v vp src n off) : EndFits frames v vp k n off := by
  unfold EndFits
  by_cases hn : n = 0
  · have hcall : vopWriteAt frames v vp src n off = some (v, vp, 0) := by
      rw [vopWriteAt, if_neg (by simp [hfile]), if_pos hn]
    have hmax := hkept v vp 0 hcall le_rfl
    rw [if_pos hn]
    omega
  rw [if_neg hn]
  by_contra hneither
  obtain ⟨hup, hend⟩ := not_or.mp hneither
  obtain ⟨v', vp', r, hcall, hcases⟩ := hk.vopWriteAt_size hsound hhint hfile hn src
    frames off
  obtain ⟨-, hcount, hsize'⟩ := hcases.resolve_left fun hgive => hup hgive.1
  have hlt' : vp'.fileSize < 2 ^ 32 := by
    rw [hsize']
    split_ifs
    · exact Nat.mod_lt _ (by decide)
    · exact hsize
  -- The size has 32 bits, so the offset has, and then the write reaches its end.
  have hmin : writeCount v k n off ≤ n :=
    (min_le_left _ _).trans (toWrite_le off hsound (hk.fileRoom_le hsound) hn31)
  rw [asInt_of_lt (hmin.trans_lt hn31)] at hcount
  have hmax := hkept v' vp' r hcall (by omega)
  rw [written_eq hsound hn hup (by omega) (by omega)] at hcount
  omega

/-- The sum of the offset and the length has 64 bits, or there is nothing to read anyway: no frame,
no byte behind the offset, or no byte in the chain behind the end of the file. -/
def ReadFits (frames : ℕ) (v : Volume) (vp : Vnode) (k : List ℕ) (n off : ℕ) : Prop :=
  frames = 0 ∨ vp.fileSize ≤ off ∨ off + n < 2 ^ 64 ∨
    k.length * v.geo.clusterSize ≤ vp.fileSize

/-- A read copies no byte from behind the end of the file if and only if the sum has 64 bits or
there is no such byte. -/
theorem read_bounded_iff (hsound : v.geo.Sound) (hk : v.FileClusters vp.startCluster k)
    (hempty : k = [] → vp.fileSize = 0) (hsize : vp.fileSize < 2 ^ 32) (hn : n < 2 ^ 64) :
    (vopReadAt frames v vp n off).2.length ≤ vp.fileSize - off ↔ ReadFits frames v vp k n off := by
  unfold ReadFits
  by_cases hbehind : vp.fileSize ≤ off
  · have hnone : (vopReadAt frames v vp n off).2 = [] := by
      rw [vopReadAt, readCount, if_pos hbehind]
      rfl
    rw [hnone]
    exact iff_of_true (Nat.zero_le _) (.inr (.inl hbehind))
  by_cases hframes : frames = 0
  · have hnone : (vopReadAt frames v vp n off).2 = [] := by
      unfold vopReadAt
      dsimp only
      split
      · rfl
      split <;> rfl
    rw [hnone]
    exact iff_of_true (Nat.zero_le _) (.inl hframes)
  have hne : k ≠ [] := fun hnil => by
    have := hempty hnil
    omega
  have hchain := (hk.resolve_left fun hnil => hne hnil.2).1
  have hlength := hchain.length_le hsound.entriesOk
  have hmarks := hsound.clusters_le
  have hbound : k.length * v.geo.clusterSize ≤ 2 ^ 28 * 4096 :=
    Nat.mul_le_mul (by omega) hsound.page
  rw [hchain.vopReadAt_eq hne hsound hframes (by omega) rfl, Bytes.slice_length,
    readCount, if_neg hbehind]
  by_cases hsum : off + n < 2 ^ 64
  · refine iff_of_true ?_ (.inr (.inr (.inl hsum)))
    split_ifs <;> omega
  · rw [if_neg (show ¬ vp.fileSize < (off + n) % 2 ^ 64 by omega)]
    omega

/-- A read copies at most the rest of the file if and only if its sum has 64 bits or there is
nothing else to copy. A write leaves the size that its result says if its end has 32 bits, and for
lengths that fit an `int` only then. -/
theorem fat32_size_laws (hsound : v.geo.Sound) (hhint : v.HintOk) (hfile : vp.isDir = false)
    (hk : v.FileClusters vp.startCluster k) (hempty : k = [] → vp.fileSize = 0)
    (hsize : vp.fileSize < 2 ^ 32) (hn : n < 2 ^ 64) (src : Bytes) :
    ((vopReadAt frames v vp n off).2.length ≤ vp.fileSize - off ↔
        ReadFits frames v vp k n off) ∧
      (EndFits frames v vp k n off → SizeKept frames v vp src n off) ∧
      (n < 2 ^ 31 → (SizeKept frames v vp src n off ↔ EndFits frames v vp k n off)) :=
  ⟨read_bounded_iff hsound hk hempty hsize hn,
    fun hfits => sizeKept_of_endFits hsound hhint hfile hk hfits src,
    fun hn31 => ⟨endFits_of_sizeKept hsound hhint hfile hk hsize hn31,
      fun hfits => sizeKept_of_endFits hsound hhint hfile hk hfits src⟩⟩

/-- A read behind the byte of `A`, and another byte that is appended. -/
theorem fat32_size_laws_shortA :
    (vopReadAt 8 shortA.volume vnodeA 1 1).2.length ≤ vnodeA.fileSize - 1 ∧
      SizeKept 8 shortA.volume vnodeA (fun _ => 67) 1 1 := by
  have hgeo : shortA.volume.geo = smallGeometry := by decide +kernel
  have hk : shortA.volume.FileClusters vnodeA.startCluster [3] := by decide +kernel
  obtain ⟨hread, hwrite, -⟩ := fat32_size_laws (n := 1) (by rw [hgeo]; exact smallGeometry_sound)
    (by decide +kernel) (by decide) hk (by simp) (by decide) (by decide) fun _ => 67
  exact ⟨hread.mpr (.inr (.inl (by decide))), hwrite (.inr (by decide +kernel))⟩

/-- Two bytes were written to the new file `A`. -/
def twoBytesA : FileRun :=
  createdA.step (rootVnode smallGeometry) nameA (.write 8 0 (fun _ => 66) 2 0)

/-- A read of `2 ^ 64 - 1` bytes at offset 1 of a file of two bytes copies the rest of its cluster.
A write of one byte at offset `2 ^ 41` of a file of one byte goes to offset 0, returns 1 and leaves
the size 1. -/
theorem fat32_sizes_wrap :
    (twoBytesA.vnodes = [⟨3, 2, attrArchive, 2, 0⟩] ∧
      (vopReadAt 8 twoBytesA.volume ⟨3, 2, attrArchive, 2, 0⟩ (2 ^ 64 - 1) 1).2.length = 511) ∧
    ∃ v' vp', vopWriteAt 8 shortA.volume vnodeA (fun _ => 67) 1 (2 ^ 41) = some (v', vp', 1) ∧
      vp'.fileSize = 1 ∧ vopReadAt 8 v' vp' 1 0 = (1, [67]) := by
  refine ⟨⟨by decide +kernel, by decide +kernel⟩, ?_⟩
  have hcall : (vopWriteAt 8 shortA.volume vnodeA (fun _ => 67) 1 (2 ^ 41)).map (fun r =>
      (r.2.2, r.2.1.fileSize, vopReadAt 8 r.1 r.2.1 1 0)) = some (1, 1, 1, [67]) := by
    decide +kernel
  obtain ⟨⟨v', vp', r⟩, hwrite, hdata⟩ := Option.map_eq_some_iff.mp hcall
  obtain ⟨rfl, hrest⟩ := Prod.mk.inj hdata
  obtain ⟨hsize, hread⟩ := Prod.mk.inj hrest
  exact ⟨v', vp', hwrite, hsize, hread⟩

/-! ## A full volume -/

/-- The write ends at one of the two places where there is no free cluster: the first cluster of
the file cannot be allocated, or the chain does not reach the offset. -/
def OutOfSpace (frames : ℕ) (v : Volume) (vp : Vnode) (nbyte offset : ℕ) : Prop :=
  match firstCluster frames v vp with
  | (_, none) => True
  | (u, some vp') =>
    match growFile frames u vp'.startCluster (clustersNeeded u.geo.clusterSize offset nbyte) with
    | some (w, some i) => i * w.geo.clusterSize ≤ offset
    | _ => False

instance (frames : ℕ) (v : Volume) (vp : Vnode) (nbyte offset : ℕ) :
    Decidable (OutOfSpace frames v vp nbyte offset) := by
  unfold OutOfSpace
  split
  · exact .isTrue trivial
  · split
    · exact inferInstanceAs (Decidable (_ ≤ _))
    · exact .isFalse id

/-- Every entry of the FAT, the slots of every directory, and the start cluster and the size of
the vnode are as before. -/
structure CleanlyFailed (v v' : Volume) (vp vp' : Vnode) : Prop where
  fat : v'.fat = v.fat
  slots : ∀ d l, v.Chain d l → dirSlots v' l = dirSlots v l
  start : vp'.startCluster = vp.startCluster
  size : vp'.fileSize = vp.fileSize

theorem CleanlyFailed.refl (v : Volume) (vp : Vnode) : CleanlyFailed v v vp vp :=
  ⟨rfl, fun _ _ _ => rfl, rfl, rfl⟩

theorem fat_ne_zero_of_full (h : freeClusters v = ∅) (hc : v.geo.IsData c) : v.fat c ≠ 0 :=
  fun hzero => Finset.notMem_empty c (h ▸ mem_freeClusters.mpr ⟨hc, hzero⟩)

/-- Without free clusters nothing is extended. -/
theorem Volume.Chain.growFile_full {needed : ℕ} (h : v.Chain c k) (hk : k ≠ [])
    (hsound : v.geo.Sound) (hhint : v.HintOk) (hfull : freeClusters v = ∅)
    (hneeded : k.length < needed) : growFile frames v c needed = some (v, some k.length) := by
  obtain ⟨m, hm⟩ : ∃ m, needed - k.length = m + 1 := ⟨needed - k.length - 1, by omega⟩
  have hextend : extendChain v (k.getLast hk) = (v, 0) := by
    rcases extendChain_cases hsound hhint (h.isData (List.getLast_mem hk)) with
      ⟨heq, -⟩ | ⟨w, x, -, -, he⟩
    · exact heq
    · exact absurd he.free (fat_ne_zero_of_full hfull he.isData)
  rw [growFile, h.chainLength_eq hsound.entriesOk]
  simp only [if_pos hneeded, h.lastCluster_eq hk hsound, hm, extendLoop, hextend, if_true]

/-- A write that ends for want of a free cluster leaves everything as before if and only if no
cluster was free when it began. -/
theorem fat32_failed_write_clean_iff (hsound : v.geo.Sound) (hhint : v.HintOk)
    (hfile : vp.isDir = false) (hk : v.FileClusters vp.startCluster k) (hn : n ≠ 0)
    (hspace : OutOfSpace frames v vp n off) (src : Bytes) :
    ∃ v' vp', vopWriteAt frames v vp src n off = some (v', vp', -1) ∧
      (CleanlyFailed v v' vp vp' ↔ freeClusters v = ∅) := by
  rw [vopWriteAt, if_neg (by simp [hfile]), if_neg hn]
  unfold OutOfSpace at hspace
  rcases hk.firstCluster_cases hsound hhint frames with ⟨hnone, -, hempty⟩ | ⟨u, vp₁, k₁, hfirst, hb⟩
  · rw [hnone]
    exact ⟨v, vp, rfl, iff_of_true (.refl v vp) hempty⟩
  have husound : u.geo.Sound := hb.keeps.geo ▸ hsound
  rw [hfirst] at hspace ⊢
  simp only at hspace ⊢
  obtain ⟨w, q, ext, hgrow, hg, hcases⟩ := hb.chain.growFile_spec hb.nonempty husound
    hb.keeps.hint frames (clustersNeeded u.geo.clusterSize off n)
  have hgrow' := hgrow
  unfold clustersNeeded at hgrow'
  rw [hgrow] at hspace
  rw [hgrow']
  rcases hcases with ⟨rfl, -, -⟩ | ⟨rfl, hlt, hfull⟩
  · exact absurd hspace id
  have hspace' : (k₁ ++ ext).length * w.geo.clusterSize ≤ off := hspace
  simp only [if_pos hspace']
  refine ⟨w, vp₁, rfl, fun hclean => ?_, fun hempty => ?_⟩
  · -- Every cluster that was free has an entry now.
    refine Finset.eq_empty_of_forall_notMem fun y hy => ?_
    obtain ⟨hdata, hzero⟩ := mem_freeClusters.mp hy
    have hne := hfull y (hb.keeps.geo ▸ hdata)
    rw [hclean.fat] at hne
    exact hne hzero
  · obtain ⟨rfl, rfl, -⟩ : u = v ∧ vp₁ = vp ∧ k₁ = k := by
      rcases hb.start with hsame | ⟨-, -, x, -, ha⟩
      · exact hsame
      · exact absurd ha.free (fat_ne_zero_of_full hempty ha.isData)
    rw [List.length_append] at hlt
    rw [hb.chain.growFile_full hb.nonempty hsound hhint hempty (by omega)] at hgrow
    obtain ⟨rfl, -⟩ := Prod.mk.inj (Option.some.inj hgrow)
    exact .refl u vp₁

/-- The vnode of the new file `A`, which has no cluster. -/
def emptyA : Vnode := ⟨0, 0, attrArchive, 2, 0⟩

theorem fat32_failed_write_clean_emptyA :
    ∃ v' vp', vopWriteAt 8 createdA.volume emptyA (fun _ => 66) 1 5000 = some (v', vp', -1) ∧
      (CleanlyFailed createdA.volume v' emptyA vp' ↔ freeClusters createdA.volume = ∅) := by
  have hgeo : createdA.volume.geo = smallGeometry := by decide +kernel
  exact fat32_failed_write_clean_iff (k := []) (by rw [hgeo]; exact smallGeometry_sound)
    (by decide +kernel) (by decide) (.inl ⟨by decide, rfl⟩) one_ne_zero (by decide +kernel)
    fun _ => 66

/-- A write to the empty file `A` at an offset behind the volume returns -1. The file has all
clusters then, the first of which only the vnode knows. -/
theorem fat32_failed_write_keeps_clusters :
    ∃ v' vp', vopWriteAt 8 createdA.volume emptyA (fun _ => 66) 1 5000 = some (v', vp', -1) ∧
      createdA.volume.fat 3 = 0 ∧ v'.fat 3 = 4 ∧ vp'.startCluster = 3 ∧
      (findName nameA (listing v' [2])).map Live.cluster = some 0 := by
  have hcall : (vopWriteAt 8 createdA.volume emptyA (fun _ => 66) 1 5000).map (fun r => (r.2.2,
      createdA.volume.fat 3, r.1.fat 3, r.2.1.startCluster,
      (findName nameA (listing r.1 [2])).map Live.cluster)) = some (-1, 0, 4, 3, some 0) := by
    decide +kernel
  obtain ⟨⟨v', vp', r⟩, hwrite, hdata⟩ := Option.map_eq_some_iff.mp hcall
  simp only [Prod.mk.injEq] at hdata
  obtain ⟨rfl, hdata⟩ := hdata
  exact ⟨v', vp', hwrite, hdata⟩

end Tomahawk.Fat32
