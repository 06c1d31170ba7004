import Tomahawk.Block.Programs
import Tomahawk.Fat32.Faults

/-!
# The FAT on the buffer cache

The helpers of `fat32.c` for entries of the FAT as programs of `block_read` and `block_write`
calls. On a plain array whose accesses all lie on the device they do what the helpers of a volume
do, so through the cache they do that as well while no device access fails.
-/

namespace Tomahawk.Fat32

open Function Tomahawk.Lib Tomahawk.Block

/-- The fields of `struct fat32_mount`, which are not on the device. -/
structure MountState where
  geo : Geometry
  freeCount : ℕ
  nextFree : ℕ

/-- The volume, given the contents of the device. -/
def MountState.volume (m : MountState) (disk : Bytes) : Volume :=
  ⟨m.geo, m.freeCount, m.nextFree, disk⟩

/-- The part of a volume that is not on the device. -/
def Volume.mounted (v : Volume) : MountState := ⟨v.geo, v.freeCount, v.nextFree⟩

/-- The bytes of a number. -/
def leBytes (n v : ℕ) : List UInt8 := (List.range n).map fun k => UInt8.ofNat (v / 256 ^ k)

namespace MountState

/-- `fat32_read_bytes` -/
def readBytes (offset count : ℕ) : Program (Option Bytes) :=
  .read offset count fun r => .done (if r.1 = count then some (bufferBytes r.2) else none)

/-- `fat32_write_bytes` -/
def writeBytes (offset : ℕ) (src : List UInt8) : Program Bool :=
  .write offset src fun ret => .done (decide (ret = src.length))

/-- `fat32_fat_read` -/
def fatRead (m : MountState) (cluster : ℕ) : Program ℕ := do
  match ← readBytes (m.geo.fatOffset 0 cluster) 4 with
  | none => return 0
  | some entry => return entry.le 0 4 % 2 ^ 28

/-- The loop of `fat32_fat_write` over the copies from `i` on. -/
def fatWriteLoop (m : MountState) (cluster value : ℕ) : ℕ → ℕ → Program Bool
  | 0, _ => return true
  | n + 1, i => do
    let offset := m.geo.fatOffset i cluster
    match ← readBytes offset 4 with
    | none => return false
    | some existing =>
      let newVal := existing.le 0 4 / 2 ^ 28 * 2 ^ 28 + value % 2 ^ 28
      if ← writeBytes offset (leBytes 4 newVal) then fatWriteLoop m cluster value n (i + 1)
      else return false

/-- `fat32_fat_write` -/
def fatWrite (m : MountState) (cluster value : ℕ) : Program Bool :=
  m.fatWriteLoop cluster value m.geo.numFats 0

/-- The hints after a cluster was taken. -/
def take (m : MountState) (cluster : ℕ) : MountState :=
  { m with
    nextFree := (cluster + 1) % 2 ^ 32
    freeCount :=
      if m.freeCount ≠ 0xFFFFFFFF ∧ 0 < m.freeCount then m.freeCount - 1 else m.freeCount }

/-- The scan of `fat32_alloc_cluster`. -/
def allocScan (m : MountState) (start total : ℕ) : ℕ → ℕ → Program (MountState × ℕ)
  | 0, _ => return (m, 0)
  | n + 1, i => do
    let candidate := allocCandidate start total i
    if (← m.fatRead candidate) = 0 then
      if ← m.fatWrite candidate clusterEoc then return (m.take candidate, candidate)
      else return (m, 0)
    else allocScan m start total n (i + 1)

/-- `fat32_alloc_cluster` -/
def allocCluster (m : MountState) : Program (MountState × ℕ) :=
  m.allocScan (if 2 ≤ m.nextFree then m.nextFree else 2) ((m.geo.totalDataClusters + 2) % 2 ^ 32)
    m.geo.totalDataClusters 0

/-- `fat32_extend_chain` -/
def extendChain (m : MountState) (last : ℕ) : Program (MountState × ℕ) := do
  let r ← m.allocCluster
  if r.2 = 0 then return (r.1, 0)
  else
    if ← r.1.fatWrite last r.2 then return r
    else
      let _ ← r.1.fatWrite r.2 0
      return (r.1, 0)

/-- The loop of `fat32_free_chain`, with the steps that its guard allows. -/
def freeLoop : ℕ → MountState → ℕ → Program (MountState × Bool)
  | 0, m, _ => return (m, true)
  | n + 1, m, cur => do
    if 2 ≤ cur ∧ ¬ isEoc cur ∧ cur ≠ clusterBad then
      let next ← m.fatRead cur
      if ← m.fatWrite cur 0 then
        freeLoop n { m with
          freeCount := if m.freeCount ≠ 0xFFFFFFFF then (m.freeCount + 1) % 2 ^ 32
            else m.freeCount } next
      else return (m, false)
    else return (m, true)

/-- `fat32_free_chain` -/
def freeChain (m : MountState) (start : ℕ) : Program (MountState × Bool) :=
  freeLoop (m.geo.totalDataClusters + 1) m start

/-! ## On an array -/

variable {env : Devices} {dev : DevPtr} {flat : Flat} {m : MountState} {offset n i c x last : ℕ}
  {l : List ℕ}

theorem readBytes_onFlat (hn : n ≠ 0) (hon : offset + n ≤ env.totalBlocks dev * blockSize) :
    (readBytes offset n).onFlat env dev flat =
      (flat, some (bufferBytes ((flat dev).slice offset n))) := by
  have hrange : env.inRange dev offset n = n := Nat.min_eq_left (by omega)
  simp [Program.onFlat, readBytes, Program.run, Flat.step, hn, hrange]

theorem writeBytes_onFlat {src : List UInt8} (hn : src.length ≠ 0)
    (hon : offset + src.length ≤ env.totalBlocks dev * blockSize) :
    (writeBytes offset src).onFlat env dev flat =
      (update flat dev ((flat dev).copyIn offset src.length (bufferBytes src) 0), true) := by
  have hrange : env.inRange dev offset src.length = src.length := Nat.min_eq_left (by omega)
  simp [Program.onFlat, writeBytes, Program.run, Flat.step, hn, hrange]

/-- The bytes of a number are copied. -/
theorem copyIn_leBytes (b : Bytes) (off n v : ℕ) :
    b.copyIn off n (bufferBytes (leBytes n v)) 0 = b.putLe off n v := by
  funext k
  unfold Bytes.copyIn Bytes.putLe
  split_ifs with hk
  · have hlt : k - off < n := by omega
    simp [bufferBytes, leBytes, hlt]
  · rfl

section

variable (hsound : m.geo.Sound) (hfits : m.geo.Fits (env.totalBlocks dev))
include hsound hfits

section

variable (hc : c < m.geo.totalDataClusters + 2)
include hc

theorem fatRead_onFlat :
    (m.fatRead c).onFlat env dev flat = (flat, (m.volume (flat dev)).fat c) := by
  have hon := hsound.entry_fits hfits hsound.fats hc
  have hentry : (m.volume (flat dev)).fat c = _ := (Fat32.fatRead_eq hc).symm
  simp only [fatRead, Program.onFlat_bind, readBytes_onFlat (by decide) hon, Program.onFlat_pure,
    hentry]
  rfl

theorem fatWriteLoop_onFlat (hn : i + n ≤ m.geo.numFats) :
    (m.fatWriteLoop c x n i).onFlat env dev flat = (update flat dev ((List.range' i n).foldl
      (fun disk k => putEntry (m.geo.fatOffset k c) x disk) (flat dev)), true) := by
  induction n generalizing i flat with
  | zero => simp [fatWriteLoop]
  | succ n ih =>
    have hon := hsound.entry_fits hfits (show i < m.geo.numFats by omega) hc
    have hlen : ∀ v, (leBytes 4 v).length = 4 := fun v => by simp [leBytes]
    have hwrite : ∀ v, (writeBytes (m.geo.fatOffset i c) (leBytes 4 v)).onFlat env dev flat =
        (update flat dev ((flat dev).putLe (m.geo.fatOffset i c) 4 v), true) := by
      intro v
      rw [writeBytes_onFlat (by simp [hlen]) (by rwa [hlen]), hlen, copyIn_leBytes]
    simp only [fatWriteLoop, Program.onFlat_bind, readBytes_onFlat (by decide) hon, hwrite,
      if_true, ih (show i + 1 + n ≤ m.geo.numFats by omega), update_self, update_idem,
      List.range'_succ, List.foldl_cons]
    rfl

theorem fatWrite_onFlat (x : ℕ) : (m.fatWrite c x).onFlat env dev flat =
    (update flat dev (Fat32.fatWrite (m.volume (flat dev)) c x).disk, true) := by
  rw [fatWrite, fatWriteLoop_onFlat hsound hfits hc (by omega), Fat32.fatWrite,
    List.range_eq_range']
  rfl

end

/-- The scan marks the first free candidate. -/
theorem allocScan_onFlat {start total : ℕ} (hon : ∀ j, i ≤ j → j < i + n →
    allocCandidate start total j < m.geo.totalDataClusters + 2) :
    (m.allocScan start total n i).onFlat env dev flat =
      match Fat32.allocScan (m.volume (flat dev)) start total n i with
      | none => (flat, m, 0)
      | some x => (update flat dev (Fat32.fatWrite (m.volume (flat dev)) x clusterEoc).disk,
          m.take x, x) := by
  induction n generalizing i with
  | zero => rfl
  | succ n ih =>
    have hcandidate := hon i le_rfl (by omega)
    simp only [allocScan, Fat32.allocScan, Program.onFlat_bind,
      fatRead_onFlat hsound hfits hcandidate, Fat32.fatRead_eq (v := m.volume (flat dev)) hcandidate]
    by_cases hfree : (m.volume (flat dev)).fat (allocCandidate start total i) = 0
    · simp [hfree, fatWrite_onFlat hsound hfits hcandidate]
    · simp only [hfree, if_false]
      exact ih fun j hj hj' => hon j (by omega) (by omega)

theorem allocCluster_onFlat (hhint : (m.volume (flat dev)).HintOk) :
    m.allocCluster.onFlat env dev flat =
      (update flat dev (Fat32.allocCluster (m.volume (flat dev))).1.disk,
        (Fat32.allocCluster (m.volume (flat dev))).1.mounted,
        (Fat32.allocCluster (m.volume (flat dev))).2) := by
  have hon : ∀ j, 0 ≤ j → j < 0 + m.geo.totalDataClusters →
      allocCandidate (m.volume (flat dev)).scanStart ((m.geo.totalDataClusters + 2) % 2 ^ 32) j <
        m.geo.totalDataClusters + 2 := by
    intro j _ hj
    rw [Nat.zero_add] at hj
    exact ((isData_iff_allocCandidate (v := m.volume (flat dev)) hsound hhint).mpr ⟨j, hj, rfl⟩).2
  refine (allocScan_onFlat hsound hfits hon).trans ?_
  rw [Fat32.allocCluster, ← Volume.scanStart]
  simp only [show (m.volume (flat dev)).geo = m.geo from rfl]
  cases Fat32.allocScan (m.volume (flat dev)) (m.volume (flat dev)).scanStart
      ((m.geo.totalDataClusters + 2) % 2 ^ 32) m.geo.totalDataClusters 0 with
  | none => simp [MountState.volume, Volume.mounted]
  | some x => rfl

theorem extendChain_onFlat (hhint : (m.volume (flat dev)).HintOk) (hlast : m.geo.IsData last) :
    (m.extendChain last).onFlat env dev flat =
      (update flat dev (Fat32.extendChain (m.volume (flat dev)) last).1.disk,
        (Fat32.extendChain (m.volume (flat dev)) last).1.mounted,
        (Fat32.extendChain (m.volume (flat dev)) last).2) := by
  rw [extendChain, Fat32.extendChain, Program.onFlat_bind,
    allocCluster_onFlat hsound hfits hhint]
  rcases allocCluster_cases (v := m.volume (flat dev)) hsound hhint with
    ⟨heq, -⟩ | ⟨w, x, heq, hne, hw⟩
  · simp [heq]
  · have hgeo : w.mounted.geo = m.geo := hw.geo
    have hwrite : (w.mounted.fatWrite last x).onFlat env dev (update flat dev w.disk) = _ :=
      fatWrite_onFlat (hgeo ▸ hsound) (hgeo ▸ hfits) (hgeo ▸ hlast.2) x
    simp only [heq, hne, if_false, Program.onFlat_bind, hwrite, if_true, Program.onFlat_pure,
      update_self, update_idem]
    rfl

/-- A chain is freed cluster by cluster. -/
theorem freeLoop_onFlat (h : (m.volume (flat dev)).Chain c l) :
    (freeLoop n m c).onFlat env dev flat =
      (update flat dev (Fat32.freeLoop n (m.volume (flat dev)) c).disk,
        (Fat32.freeLoop n (m.volume (flat dev)) c).mounted, true) := by
  induction n generalizing m c l flat with
  | zero => simp [freeLoop, Fat32.freeLoop, MountState.volume, Volume.mounted]
  | succ n ih =>
    rw [freeLoop, Fat32.freeLoop]
    by_cases hgo : 2 ≤ c ∧ ¬ isEoc c ∧ c ≠ clusterBad
    swap
    · simp [if_neg hgo, MountState.volume, Volume.mounted]
    cases l with
    | nil => exact absurd h hgo.2.1
    | cons x xs =>
      obtain rfl := h.1
      have hc := h.2.1
      have hvol : (freeCluster (m.volume (flat dev)) c).mounted.volume
          (update flat dev (freeCluster (m.volume (flat dev)) c).disk dev) =
            freeCluster (m.volume (flat dev)) c := by
        rw [update_self]
        rfl
      have hnext := h.freeCluster hsound.entriesOk
      rw [← hvol] at hnext
      have hrest := ih (m := (freeCluster (m.volume (flat dev)) c).mounted) hsound hfits hnext
      rw [hvol, update_idem] at hrest
      simp only [if_pos hgo, Program.onFlat_bind, fatRead_onFlat hsound hfits hc.2,
        fatWrite_onFlat hsound hfits hc.2, if_true, Fat32.fatRead_eq (v := m.volume (flat dev)) hc.2]
      exact hrest

end

end MountState

end Tomahawk.Fat32
