import Tomahawk.Fat32.Mount

/-!
# A device that fails

The helpers of `fat32.c` on a device with an end, whose accesses can fail, when frames can be
refused. A call counts its accesses and allocations, and `Faults` says which of them fail. An
entry of the FAT is read before it is written, so its block is cached and the write does not fail.
A cluster can lie in more blocks, and of a write that fails the blocks before stay. Where reading
the FAT fails, `fat32_fat_read` returns 0, which is also the mark of a free cluster.
-/

namespace Tomahawk.Fat32

open Tomahawk.Lib

/-- The blocks of the device, and which reads, writes and allocations of frames of a call fail. A
write fails after some blocks. -/
structure Faults where
  blocks : ℕ
  read : ℕ → Bool
  write : ℕ → Option ℕ
  frame : ℕ → Bool

/-- The volume during a call, with the numbers of reads, writes and allocations so far, the frames
that were taken and not given back, and `vnode_count`. -/
structure Call where
  vol : Volume
  reads : ℕ
  writes : ℕ
  frames : ℕ
  held : ℕ
  vnodes : ℕ

/-- At the beginning of a call. -/
def Call.start (v : Volume) : Call := ⟨v, 0, 0, 0, 0, 0⟩

namespace Faults

/-- `fat32_read_bytes` -/
def readBytes (F : Faults) (s : Call) (offset count : ℕ) : Call × Option Bytes :=
  ({ s with reads := s.reads + 1 },
    if F.read s.reads then none else Fat32.readBytes F.blocks s.vol.disk offset count)

/-- `fat32_fat_read`: the entry, or 0 if it cannot be read. -/
def fatRead (F : Faults) (s : Call) (cluster : ℕ) : Call × ℕ :=
  match F.readBytes s (s.vol.geo.fatOffset 0 cluster) 4 with
  | (s, none) => (s, 0)
  | (s, some entry) => (s, entry.le 0 4 % 2 ^ 28)

/-- One turn of the loop of `fat32_fat_write`: read an entry of one copy and write it. -/
def writeEntry (F : Faults) (s : Call) (offset value : ℕ) : Call × Bool :=
  match F.readBytes s offset 4 with
  | (s, none) => (s, false)
  | (s, some _) =>
    ({ s with
      vol := { s.vol with disk := putEntry offset value s.vol.disk }
      writes := s.writes + 1 }, true)

/-- The loop of `fat32_fat_write` over the copies from `i` on. -/
def fatWriteLoop (F : Faults) (cluster value : ℕ) : ℕ → ℕ → Call → Call × Bool
  | 0, _, s => (s, true)
  | n + 1, i, s =>
    match F.writeEntry s (s.vol.geo.fatOffset i cluster) value with
    | (s, false) => (s, false)
    | (s, true) => fatWriteLoop F cluster value n (i + 1) s

/-- `fat32_fat_write`: whether every copy was written. -/
def fatWrite (F : Faults) (s : Call) (cluster value : ℕ) : Call × Bool :=
  F.fatWriteLoop cluster value s.vol.geo.numFats 0 s

/-- The scan of `fat32_alloc_cluster`, which marks the first cluster whose entry reads as free. -/
def allocScan (F : Faults) (start total : ℕ) : ℕ → ℕ → Call → Call × ℕ
  | 0, _, s => (s, 0)
  | n + 1, i, s =>
    let candidate := allocCandidate start total i
    match F.fatRead s candidate with
    | (s, entry) =>
      if entry = 0 then
        match F.fatWrite s candidate clusterEoc with
        | (s, false) => (s, 0)
        | (s, true) => ({ s with vol := takeCluster s.vol candidate }, candidate)
      else allocScan F start total n (i + 1) s

/-- `fat32_alloc_cluster`: the cluster, or 0. -/
def allocCluster (F : Faults) (s : Call) : Call × ℕ :=
  F.allocScan (if 2 ≤ s.vol.nextFree then s.vol.nextFree else 2)
    ((s.vol.geo.totalDataClusters + 2) % 2 ^ 32) s.vol.geo.totalDataClusters 0 s

/-- `fat32_extend_chain`: the new cluster, or 0. When the old last cluster cannot be linked, the
new one is marked free again; the counts are not restored. -/
def extendChain (F : Faults) (s : Call) (last : ℕ) : Call × ℕ :=
  match F.allocCluster s with
  | (s, 0) => (s, 0)
  | (s, new) =>
    match F.fatWrite s last new with
    | (s, true) => (s, new)
    | (s, false) => ((F.fatWrite s new 0).1, 0)

/-- The loop of `fat32_free_chain`, with the steps that its guard allows. -/
def freeLoop (F : Faults) : ℕ → Call → ℕ → Call × Bool
  | 0, s, _ => (s, true)
  | n + 1, s, cur =>
    if 2 ≤ cur ∧ ¬ isEoc cur ∧ cur ≠ clusterBad then
      match F.fatRead s cur with
      | (s, next) =>
        match F.fatWrite s cur 0 with
        | (s, false) => (s, false)
        | (s, true) =>
          freeLoop F n { s with vol := { s.vol with
            freeCount := if s.vol.freeCount ≠ 0xFFFFFFFF then (s.vol.freeCount + 1) % 2 ^ 32
              else s.vol.freeCount } } next
    else (s, true)

/-- `fat32_free_chain` -/
def freeChain (F : Faults) (s : Call) (start : ℕ) : Call × Bool :=
  F.freeLoop (s.vol.geo.totalDataClusters + 1) s start

end Faults

/-! ## Accesses that succeed -/

/-- The device has the data clusters, and so the FAT in front of them. -/
def Geometry.Fits (g : Geometry) (blocks : ℕ) : Prop :=
  (g.dataStartSector + g.totalDataClusters * g.secPerClus) * g.bytesPerSec ≤
    blocks * Block.blockSize

instance (g : Geometry) (blocks : ℕ) : Decidable (g.Fits blocks) :=
  inferInstanceAs (Decidable (_ ≤ _))

variable {F : Faults} {s : Call} {v : Volume} {c x : ℕ} {i offset value n : ℕ}

/-- The entries of the clusters are on the device. -/
theorem Geometry.Sound.entry_fits {g : Geometry} {blocks : ℕ} (h : g.Sound) (hfits : g.Fits blocks)
    (hi : i < g.numFats) (hc : c < g.totalDataClusters + 2) :
    g.fatOffset i c + 4 ≤ blocks * Block.blockSize := by
  have hbefore := h.fatOffset_clusterOffset hi hc 2
  have hdata : g.clusterOffset 2 ≤
      (g.dataStartSector + g.totalDataClusters * g.secPerClus) * g.bytesPerSec := by
    exact Nat.mul_le_mul_right _ (by omega)
  unfold Geometry.Fits at hfits
  omega

/-- Reading an entry of the FAT that is on the device. -/
theorem Faults.fatRead_of_ok (hread : F.read s.reads = false)
    (hon : s.vol.geo.fatOffset 0 c + 4 ≤ F.blocks * Block.blockSize) :
    F.fatRead s c = ({ s with reads := s.reads + 1 }, Fat32.fatRead s.vol c) := by
  unfold fatRead readBytes Fat32.readBytes Fat32.fatRead
  simp only [hread, Bool.false_eq_true, if_false, if_pos hon]
  congr 2

/-- A copy of an entry is written. -/
theorem Faults.writeEntry_of_ok (hread : F.read s.reads = false)
    (hon : offset + 4 ≤ F.blocks * Block.blockSize) :
    F.writeEntry s offset value = ({ s with
      vol := { s.vol with disk := putEntry offset value s.vol.disk }
      reads := s.reads + 1
      writes := s.writes + 1 }, true) := by
  unfold writeEntry readBytes Fat32.readBytes
  simp only [hread, Bool.false_eq_true, if_false, if_pos hon]

/-- The copies are written one after the other. -/
theorem Faults.fatWriteLoop_eq (hread : ∀ k, F.read k = false)
    (hon : ∀ k, i ≤ k → k < i + n → s.vol.geo.fatOffset k c + 4 ≤ F.blocks * Block.blockSize) :
    F.fatWriteLoop c value n i s = ({ s with
      vol := { s.vol with
        disk := (List.range' i n).foldl
          (fun disk k => putEntry (s.vol.geo.fatOffset k c) value disk) s.vol.disk }
      reads := s.reads + n
      writes := s.writes + n }, true) := by
  induction n generalizing i s with
  | zero => rfl
  | succ n ih =>
    rw [fatWriteLoop, writeEntry_of_ok (hread _) (hon i le_rfl (by omega))]
    have hrest := @ih { s with
      vol := { s.vol with disk := putEntry (s.vol.geo.fatOffset i c) value s.vol.disk }
      reads := s.reads + 1
      writes := s.writes + 1 } (i + 1) fun k hk hk' => hon k (by omega) (by omega)
    simp only [hrest, List.range'_succ, List.foldl_cons, Nat.add_assoc, Nat.add_comm 1]

section Reads

variable (hread : ∀ k, F.read k = false) (hsound : s.vol.geo.Sound)
  (hfits : s.vol.geo.Fits F.blocks)
include hread hsound hfits

section

variable (hc : c < s.vol.geo.totalDataClusters + 2)
include hc

/-- Every copy is written. -/
theorem Faults.fatWrite_eq (value : ℕ) :
    F.fatWrite s c value = ({ s with
      vol := Fat32.fatWrite s.vol c value
      reads := s.reads + s.vol.geo.numFats
      writes := s.writes + s.vol.geo.numFats }, true) := by
  rw [fatWrite, fatWriteLoop_eq hread fun j _ hj => hsound.entry_fits hfits (by omega) hc,
    Fat32.fatWrite, List.range_eq_range']

theorem Faults.fatRead_eq : F.fatRead s c = ({ s with reads := s.reads + 1 }, s.vol.fat c) := by
  rw [fatRead_of_ok (hread _) (hsound.entry_fits hfits hsound.fats hc), Fat32.fatRead_eq hc]

end

/-- The scan reads on until an entry is free, and marks its cluster. -/
theorem Faults.allocScan_eq {start total : ℕ}
    (hon : ∀ j, i ≤ j → j < i + n →
      allocCandidate start total j < s.vol.geo.totalDataClusters + 2) :
    ∃ k k', F.allocScan start total n i s =
      match Fat32.allocScan s.vol start total n i with
      | none => ({ s with reads := k, writes := k' }, 0)
      | some x => ({ s with
          vol := takeCluster (Fat32.fatWrite s.vol x clusterEoc) x
          reads := k
          writes := k' }, x) := by
  induction n generalizing i s with
  | zero => exact ⟨s.reads, s.writes, rfl⟩
  | succ n ih =>
    have hcandidate := hon i le_rfl (by omega)
    rw [allocScan, Fat32.allocScan, fatRead_eq hread hsound hfits hcandidate,
      Fat32.fatRead_eq hcandidate]
    simp only
    by_cases hfree : s.vol.fat (allocCandidate start total i) = 0
    · rw [if_pos hfree, if_pos hfree,
        fatWrite_eq (s := { s with reads := s.reads + 1 }) hread hsound hfits hcandidate]
      exact ⟨_, _, rfl⟩
    · rw [if_neg hfree, if_neg hfree]
      exact ih (s := { s with reads := s.reads + 1 }) hsound hfits
        fun j hj hj' => hon j (by omega) (by omega)

/-- From a sound hint, allocation does what it does on a volume. -/
theorem Faults.allocCluster_eq (hhint : s.vol.HintOk) :
    ∃ k k', F.allocCluster s = ({ s with
      vol := (Fat32.allocCluster s.vol).1
      reads := k
      writes := k' }, (Fat32.allocCluster s.vol).2) := by
  have hon : ∀ j, 0 ≤ j → j < 0 + s.vol.geo.totalDataClusters →
      allocCandidate s.vol.scanStart ((s.vol.geo.totalDataClusters + 2) % 2 ^ 32) j <
        s.vol.geo.totalDataClusters + 2 :=
    fun j _ hj => ((isData_iff_allocCandidate hsound hhint).mpr ⟨j, by omega, rfl⟩).2
  obtain ⟨k, k', heq⟩ := allocScan_eq hread hsound hfits hon
  refine ⟨k, k', ?_⟩
  rw [allocCluster, ← Volume.scanStart, heq, Fat32.allocCluster, ← Volume.scanStart]
  cases Fat32.allocScan s.vol s.vol.scanStart ((s.vol.geo.totalDataClusters + 2) % 2 ^ 32)
      s.vol.geo.totalDataClusters 0 with
  | none => rfl
  | some x => rfl

end Reads

end Tomahawk.Fat32
