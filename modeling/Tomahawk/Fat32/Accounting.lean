import Tomahawk.Fat32.OnCache
import Mathlib.Algebra.BigOperators.Group.Finset.Piecewise

/-!
# The free count

The free count of a mounted volume over runs of `fat32_alloc_cluster`, `fat32_extend_chain` and
`fat32_free_chain` on the buffer cache. `fat32_fat_write` only changes a cached block, so a write
to the device happens later, when a buffer is evicted. The result of that write is not looked at:
if it fails, the update of the FAT is gone, while the count has been changed.
-/

namespace Tomahawk.Fat32

open Function Tomahawk.Lib Tomahawk.Block

/-- The number of free data clusters. -/
def countFree (v : Volume) : ℕ := (freeClusters v).card

/-- The free count is known and right. -/
def Counted (v : Volume) : Prop := v.freeCount = countFree v

instance (v : Volume) : Decidable (Counted v) := inferInstanceAs (Decidable (_ = _))

/-- A mounted volume and the buffer cache. -/
structure CachedVolume where
  mount : MountState
  cache : Cache

/-- The volume as the cache shows it. -/
def CachedVolume.volume (s : CachedVolume) (dev : DevPtr) : Volume :=
  s.mount.volume (s.cache.view dev)

/-- The calls, and reads of other code that uses the cache. -/
inductive FatOp where
  | alloc
  | extend (last : ℕ)
  | free (start : ℕ)
  | read (dev : DevPtr) (offset size : ℕ)

/-- Run a program and keep the fields that it returns. -/
def CachedVolume.exec {α : Type} (env : Devices) (dev : DevPtr) (s : CachedVolume)
    (p : Program (MountState × α)) : CachedVolume :=
  let r := p.onCache env dev s.cache
  ⟨r.2.1, r.1⟩

/-- The state after a call. -/
def fatStep (env : Devices) (dev : DevPtr) (s : CachedVolume) : FatOp → CachedVolume
  | .alloc => s.exec env dev s.mount.allocCluster
  | .extend last => s.exec env dev (s.mount.extendChain last)
  | .free start => s.exec env dev (s.mount.freeChain start)
  | .read dev offset size => { s with cache := cacheStep env s.cache (.read dev offset size) }

/-- Chains are extended at their last cluster, and freed from their first one. -/
def FatOp.Proper (v : Volume) : FatOp → Prop
  | .alloc => True
  | .extend last => v.geo.IsData last ∧ isEoc (v.fat last)
  | .free start => ∃ l, v.Chain start l
  | .read _ _ _ => True

/-- The call is one of those, and no device access fails during it. -/
def FatMeets (env : Devices) (dev : DevPtr) (s : CachedVolume) (op : FatOp) : Prop :=
  op.Proper (s.volume dev) ∧
    env.Quiet s.cache.accesses (fatStep env dev s op).cache.accesses

variable {v v' : Volume} {c x y n last : ℕ} {l : List ℕ}

/-! ## Counting -/

/-- The number of free clusters when the entry of one cluster changes. -/
theorem countFree_update (hfat : v'.fat = update v.fat x y) (hgeo : v'.geo = v.geo)
    (hx : v.geo.IsData x) :
    countFree v' + (if v.fat x = 0 then 1 else 0) =
      countFree v + (if y = 0 then 1 else 0) := by
  have hmem : x ∈ Finset.Ico 2 (v.geo.totalDataClusters + 2) := Finset.mem_Ico.mpr hx
  unfold countFree freeClusters
  rw [hgeo, hfat, Finset.card_filter, Finset.card_filter, ← Finset.add_sum_erase _ _ hmem,
    ← Finset.add_sum_erase _ (fun c => if v.fat c = 0 then 1 else 0) hmem, update_self]
  have hrest : ∑ c ∈ (Finset.Ico 2 (v.geo.totalDataClusters + 2)).erase x,
        (if update v.fat x y c = 0 then 1 else 0) =
      ∑ c ∈ (Finset.Ico 2 (v.geo.totalDataClusters + 2)).erase x,
        if v.fat c = 0 then 1 else 0 :=
    Finset.sum_congr rfl fun c hc => by rw [update_of_ne (Finset.ne_of_mem_erase hc)]
  omega

theorem countFree_le (v : Volume) : countFree v ≤ v.geo.totalDataClusters := by
  have hle := Finset.card_filter_le (Finset.Ico 2 (v.geo.totalDataClusters + 2))
    fun c => v.fat c = 0
  rw [Nat.card_Ico] at hle
  exact hle.trans (by omega)

/-! ## The calls on a volume -/

/-- What the calls keep. -/
structure Accounted (v : Volume) : Prop where
  sound : v.geo.Sound
  hint : v.HintOk
  counted : Counted v

namespace Accounted

variable (h : Accounted v)
include h

/-- The count is small. -/
theorem count_lt : v.freeCount < 0x0FFFFFF7 := by
  have hle := countFree_le v
  have hmarks := h.sound.clusters_le
  have hcounted : v.freeCount = countFree v := h.counted
  omega

/-- A cluster is taken and counted. -/
theorem take (hx : v.geo.IsData x) (hfree : v.fat x = 0) :
    Accounted (takeCluster (fatWrite v x clusterEoc) x) := by
  have hfat : (takeCluster (fatWrite v x clusterEoc) x).fat = update v.fat x clusterEoc :=
    fat_fatWrite h.sound.entriesOk hx clusterEoc
  have hcard := countFree_update hfat rfl hx
  rw [if_pos hfree, if_neg (by decide)] at hcard
  have hlt := h.count_lt
  have hcounted : v.freeCount = countFree v := h.counted
  have hdata := hx.2
  refine ⟨h.sound, ?_, ?_⟩
  · change (x + 1) % 2 ^ 32 ≤ v.geo.totalDataClusters + 2
    omega
  · change (if v.freeCount ≠ 0xFFFFFFFF ∧ 0 < v.freeCount then v.freeCount - 1
      else v.freeCount) = _
    rw [if_pos ⟨by omega, by omega⟩]
    omega

theorem allocCluster : Accounted (allocCluster v).1 := by
  rw [Fat32.allocCluster, ← Volume.scanStart]
  rcases allocScan_cases h.sound h.hint rfl with ⟨hnone, -⟩ | ⟨x, hsome, hx, hfree⟩
  · simp only [hnone]
    exact h
  · simp only [hsome]
    exact h.take hx hfree

/-- The end mark of a chain becomes a link. -/
theorem extendChain (hlast : v.geo.IsData last) (heoc : isEoc (v.fat last)) :
    Accounted (extendChain v last).1 := by
  have halloc := h.allocCluster
  rw [Fat32.extendChain]
  rcases allocCluster_cases h.sound h.hint with ⟨heq, -⟩ | ⟨w, x, heq, hne, hw⟩
  · simp only [heq]
    exact h
  rw [heq] at halloc
  simp only [heq, if_neg hne]
  have hmarks := h.sound.clusters_le
  have hxhigh := hw.isData.2
  have hlast' : w.geo.IsData last := hw.geo ▸ hlast
  have hused : w.fat last ≠ 0 := by
    have hlx : last ≠ x := by
      rintro rfl
      rw [hw.free] at heoc
      exact absurd heoc (by decide)
    rw [hw.fat, update_of_ne hlx]
    intro hzero
    rw [hzero] at heoc
    exact absurd heoc (by decide)
  have hcard := countFree_update (fat_fatWrite halloc.sound.entriesOk hlast' x) rfl hlast'
  rw [if_neg hused, if_neg (by omega)] at hcard
  exact ⟨halloc.sound, halloc.hint, halloc.counted.trans hcard.symm⟩

/-- A cluster is freed and counted. -/
theorem freeCluster (hx : v.geo.IsData x) (hused : v.fat x ≠ 0) :
    Accounted (freeCluster v x) := by
  have hfat : (Fat32.freeCluster v x).fat = update v.fat x 0 := fat_fatWrite h.sound.entriesOk hx 0
  have hcard := countFree_update hfat rfl hx
  rw [if_neg hused, if_pos rfl] at hcard
  have hlt := h.count_lt
  have hcounted : v.freeCount = countFree v := h.counted
  refine ⟨h.sound, h.hint, ?_⟩
  change (if v.freeCount ≠ 0xFFFFFFFF then (v.freeCount + 1) % 2 ^ 32 else v.freeCount) = _
  rw [if_pos (by omega), Nat.mod_eq_of_lt (by omega)]
  omega

theorem freeLoop (hchain : v.Chain c l) : Accounted (freeLoop n v c) := by
  induction n generalizing v c l with
  | zero => exact h
  | succ n ih =>
    rw [Fat32.freeLoop]
    split_ifs with hgo
    · cases l with
      | nil => exact absurd hchain hgo.2.1
      | cons x xs =>
        obtain rfl := hchain.1
        rw [hchain.fatRead_eq (by simp)]
        exact ih (h.freeCluster hchain.2.1 (hchain.fat_ne_zero (by simp)))
          (hchain.freeCluster h.sound.entriesOk)
    · exact h

end Accounted

theorem geo_allocCluster (v : Volume) : (allocCluster v).1.geo = v.geo := by
  rw [allocCluster]
  split <;> rfl

theorem geo_extendChain (v : Volume) (last : ℕ) : (extendChain v last).1.geo = v.geo := by
  have halloc := geo_allocCluster v
  rw [extendChain]
  split <;> exact halloc

/-! ## The calls on the cache -/

variable {env : Devices} {dev : DevPtr} {s : CachedVolume} {flat : Flat}

/-- What the calls keep on the cache. -/
structure CachedVolume.Accounted (env : Devices) (dev : DevPtr) (s : CachedVolume) : Prop where
  cache : ∃ flat, Represents s.cache flat
  fits : s.mount.geo.Fits (env.totalBlocks dev)
  volume : Fat32.Accounted (s.volume dev)

/-- A program that makes another volume of the array. -/
theorem CachedVolume.Accounted.exec {α : Type} {p : Program (MountState × α)} {w : Volume} {a : α}
    (hdev : dev ≠ 0) (hrep : Represents s.cache flat)
    (hquiet : env.Quiet s.cache.accesses (s.exec env dev p).cache.accesses)
    (hflat : p.onFlat env dev flat = (update flat dev w.disk, w.mounted, a))
    (hfits : w.geo.Fits (env.totalBlocks dev)) (hw : Fat32.Accounted w) :
    (s.exec env dev p).Accounted env dev := by
  obtain ⟨hrep', hret⟩ := Program.onCache_eq hdev p hrep hquiet
  rw [hflat] at hrep' hret
  have hmount : (s.exec env dev p).mount = w.mounted := congrArg Prod.fst hret
  have hview : (s.exec env dev p).cache.view dev = w.disk :=
    (hrep'.view_eq dev).trans (update_self _ _ _)
  have hvolume : (s.exec env dev p).volume dev = w := by
    rw [CachedVolume.volume, hmount, hview]
    rfl
  refine ⟨⟨_, hrep'⟩, ?_, ?_⟩
  · rw [hmount]
    exact hfits
  · rw [hvolume]
    exact hw

theorem CachedVolume.Accounted.step (h : s.Accounted env dev) (hdev : dev ≠ 0) (op : FatOp)
    (hop : FatMeets env dev s op) : (fatStep env dev s op).Accounted env dev := by
  obtain ⟨⟨flat, hrep⟩, hfits, hvolume⟩ := h
  obtain ⟨hproper, hquiet⟩ := hop
  have hview := hrep.view_eq dev
  rw [CachedVolume.volume, hview] at hproper hvolume
  have hsound : s.mount.geo.Sound := hvolume.sound
  cases op with
  | alloc =>
    refine exec hdev hrep hquiet (MountState.allocCluster_onFlat hsound hfits hvolume.hint) ?_
      hvolume.allocCluster
    rw [geo_allocCluster]
    exact hfits
  | extend last =>
    refine exec hdev hrep hquiet
      (MountState.extendChain_onFlat hsound hfits hvolume.hint hproper.1) ?_
      (hvolume.extendChain hproper.1 hproper.2)
    rw [geo_extendChain]
    exact hfits
  | free start =>
    obtain ⟨l, hl⟩ := hproper
    refine exec hdev hrep hquiet (MountState.freeLoop_onFlat hsound hfits hl) ?_
      (hvolume.freeLoop hl)
    rw [(hl.freeLoop_rest hsound _).2.1]
    exact hfits
  | read dev' offset size =>
    have hrep' := hrep.stepDurable (.read dev' offset size) ⟨trivial, hquiet⟩
    have hsame : flatStep env flat (.read dev' offset size) = flat := by
      simp only [flatStep, Flat.step]
      split_ifs <;> rfl
    rw [hsame] at hrep'
    refine ⟨⟨flat, hrep'⟩, hfits, ?_⟩
    rw [CachedVolume.volume, fatStep, hrep'.view_eq dev]
    exact hvolume

/-- From a right count and a sound hint, the count stays right along every run in which no device
access fails. -/
theorem free_count_kept (env : Devices) (dev : DevPtr) (hdev : dev ≠ 0) (s : CachedVolume)
    (hcache : ∃ flat, Represents s.cache flat) (hsound : s.mount.geo.Sound)
    (hfits : s.mount.geo.Fits (env.totalBlocks dev)) (hhint : (s.volume dev).HintOk)
    (hcounted : Counted (s.volume dev)) (ops : List FatOp)
    (hops : Guarded (fatStep env dev) (FatMeets env dev) s ops) :
    Counted ((run (fatStep env dev) s ops).volume dev) := by
  have hrun : (run (fatStep env dev) s ops).Accounted env dev :=
    run_invariant (fun _ op h hop => h.step hdev op hop)
      ⟨hcache, hfits, hsound, hhint, hcounted⟩ hops
  exact hrun.volume.counted

/-- The empty volume on a device of 100 blocks, of which one access may fail. -/
def hundredBlocks (fails : Option ℕ) : Devices where
  totalBlocks := fun _ => 100
  fault := fun n => fails == some n

/-- The empty volume, before any block is cached. -/
def mountedEmpty : CachedVolume where
  mount := emptyVolume.mounted
  cache := bufferCacheInit (fun _ _ => 0) fun _ b k => emptyVolume.disk (b * blockSize + k)

/-- The root directory is extended and a chain of one cluster is made and freed. -/
theorem free_count_kept_freed : Counted ((run (fatStep (hundredBlocks none) 1) mountedEmpty
    [.extend 2, .alloc, .read 1 0x2000 1, .free 4]).volume 1) := by
  have hquiet : ∀ a b, (hundredBlocks none).Quiet a b := fun _ _ _ _ _ => rfl
  refine free_count_kept (hundredBlocks none) 1 (by decide) mountedEmpty
    ⟨_, _, rep_bufferCacheInit _ _⟩ smallGeometry_sound (by decide) (by decide) (by decide +kernel) _
    ⟨⟨⟨by decide, by decide +kernel⟩, hquiet _ _⟩, ⟨trivial, hquiet _ _⟩, ⟨trivial, hquiet _ _⟩,
      ⟨⟨[4], by decide +kernel⟩, hquiet _ _⟩, trivial⟩

/-- A cluster is allocated, and 64 other blocks are read. Access 64 is the write of the evicted
block of the FAT; it fails, the cluster is free again, and the count is one too small. -/
theorem free_count_lost :
    let s := run (fatStep (hundredBlocks (some 64)) 1) mountedEmpty
      (.alloc :: (List.range 64).map fun b => .read 1 ((b + 1) * blockSize) 1)
    Counted (mountedEmpty.volume 1) ∧ (s.volume 1).freeCount = 6 ∧ countFree (s.volume 1) = 7 := by
  decide +kernel

end Tomahawk.Fat32
