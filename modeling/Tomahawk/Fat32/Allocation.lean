import Tomahawk.Fat32.Faults

/-!
# Allocating a cluster

`fat32_alloc_cluster` starts its scan at the hint that mounting took from the FSInfo sector. The
wrap-around subtracts the number of clusters once, so it covers the data clusters exactly when the
hint is one of them or the number behind them. From a larger hint, such as the mark for an unknown
one, the scan leaves the FAT or passes free clusters by.
-/

namespace Tomahawk.Fat32

open Tomahawk.Lib

/-- No access to the device fails. -/
structure Faults.Quiet (F : Faults) : Prop where
  read : ∀ k, F.read k = false
  write : ∀ k, F.write k = none

/-- Allocation takes a free data cluster and marks only that one, and fails only if there is
none. -/
structure AllocatesFree (F : Faults) (v : Volume) : Prop where
  taken : (F.allocCluster (.start v)).2 ≠ 0 →
    v.geo.IsData (F.allocCluster (.start v)).2 ∧ v.fat (F.allocCluster (.start v)).2 = 0 ∧
      (F.allocCluster (.start v)).1.vol.fat =
        Function.update v.fat (F.allocCluster (.start v)).2 clusterEoc ∧
      (F.allocCluster (.start v)).1.vol.data = v.data
  full : (F.allocCluster (.start v)).2 = 0 → ∀ c, v.geo.IsData c → v.fat c ≠ 0

variable {F : Faults} {s : Call} {v : Volume} {start total : ℕ} {i : ℕ}

/-! ## From a sound hint -/

/-- From a sound hint, allocation does what it should. -/
theorem AllocatesFree.of_hint (hquiet : F.Quiet) (hsound : v.geo.Sound)
    (hfits : v.geo.Fits F.blocks) (hhint : v.HintOk) : AllocatesFree F v := by
  obtain ⟨k, k', heq⟩ := Faults.allocCluster_eq (s := .start v) hquiet.read hsound hfits hhint
  have hvol : (F.allocCluster (.start v)).1.vol = (allocCluster v).1 := by rw [heq]; rfl
  have hcluster : (F.allocCluster (.start v)).2 = (allocCluster v).2 := by rw [heq]; rfl
  rcases allocCluster_cases hsound hhint with ⟨hplain, hfull⟩ | ⟨w, x, hplain, hne, hw⟩
  · rw [hplain] at hcluster
    exact ⟨fun hne => absurd hcluster hne, fun _ => hfull⟩
  · rw [hplain] at hvol hcluster
    refine ⟨fun _ => ?_, fun hzero => absurd (hcluster.symm.trans hzero) hne⟩
    rw [hvol, hcluster]
    exact ⟨hw.isData, hw.free, hw.fat, hw.data⟩

/-! ## From a hint behind the clusters -/

/-- Allocation returns a candidate, or fails. -/
theorem Faults.allocScan_mem (F : Faults) (start total n i : ℕ) (s : Call) :
    (F.allocScan start total n i s).2 = 0 ∨
      ∃ j, i ≤ j ∧ j < i + n ∧ (F.allocScan start total n i s).2 = allocCandidate start total j := by
  induction n generalizing i s with
  | zero => exact .inl rfl
  | succ n ih =>
    rw [allocScan]
    generalize F.fatRead s (allocCandidate start total i) = r
    obtain ⟨s, entry⟩ := r
    dsimp only
    split_ifs with hfree
    · generalize F.fatWrite s (allocCandidate start total i) clusterEoc = w
      obtain ⟨s, _ | _⟩ := w
      · exact .inl rfl
      · exact .inr ⟨i, le_rfl, by omega, rfl⟩
    · rcases ih (i + 1) s with hzero | ⟨j, hj, hj', heq⟩
      · exact .inl hzero
      · exact .inr ⟨j, by omega, by omega, heq⟩

/-- On a disk of zeros the first candidate is taken, unless it cannot be marked. -/
theorem Faults.allocScan_zeros {n : ℕ} (hzeros : s.vol.disk = fun _ => 0) :
    (F.allocScan start total (n + 1) i s).2 = 0 ∨
      (F.allocScan start total (n + 1) i s).2 = allocCandidate start total i := by
  have hread : (F.fatRead s (allocCandidate start total i)).2 = 0 := by
    unfold fatRead readBytes Fat32.readBytes
    rw [hzeros]
    split_ifs <;> rfl
  rw [allocScan]
  generalize F.fatRead s (allocCandidate start total i) = r at hread ⊢
  obtain ⟨s, entry⟩ := r
  obtain rfl : entry = 0 := hread
  dsimp only
  generalize F.fatWrite s (allocCandidate start total i) clusterEoc = w
  obtain ⟨s, _ | _⟩ := w
  · exact .inl rfl
  · exact .inr rfl

/-- The disk on which the second cluster is free and every other byte is 1. -/
def onlySecondFree (g : Geometry) : Bytes :=
  fun k => if g.fatOffset 0 2 ≤ k ∧ k < g.fatOffset 0 2 + 4 then 0 else 1

theorem fat_onlySecondFree {c : ℕ} (hc : v.geo.IsData c) :
    Volume.fat { v with disk := onlySecondFree v.geo } c = 0 ↔ c = 2 := by
  rw [← Fat32.fatRead_eq (v := { v with disk := onlySecondFree v.geo }) hc.2, Fat32.fatRead]
  by_cases heq : c = 2
  · subst heq
    have hle : (onlySecondFree v.geo).le (v.geo.fatOffset 0 2) 4 =
        Bytes.le (fun _ => 0) (v.geo.fatOffset 0 2) 4 :=
      Bytes.le_congr fun k hk hk' => if_pos ⟨hk, hk'⟩
    simp only [hle, iff_true]
    rfl
  · have hle : (onlySecondFree v.geo).le (v.geo.fatOffset 0 c) 4 =
        Bytes.le (fun _ => 1) (v.geo.fatOffset 0 c) 4 := by
      refine Bytes.le_congr fun k hk hk' => if_neg ?_
      unfold Geometry.fatOffset at hk hk' ⊢
      omega
    have hone : Bytes.le (fun _ => 1) (v.geo.fatOffset 0 c) 4 = 0x01010101 := by
      simp [Bytes.le]
    simp only [hle, hone, heq, iff_false]
    decide

/-- Without wrap-around of 32 bits, the candidates lie below the hint. -/
theorem allocCandidate_of_hint {clusters hint : ℕ} (hclusters : clusters + 2 < 2 ^ 32)
    (hhint : clusters + 2 < hint) (hi : hint + i < 2 ^ 32) :
    allocCandidate hint ((clusters + 2) % 2 ^ 32) i = hint + i - clusters := by
  rw [allocCandidate, Nat.mod_eq_of_lt hclusters, Nat.mod_eq_of_lt hi, if_pos (by omega)]
  omega

section Behind

variable (hsound : v.geo.Sound) (hhint : v.geo.totalDataClusters + 2 < v.nextFree)

theorem allocCluster_of_hint (F : Faults) (hhint : v.geo.totalDataClusters + 2 < v.nextFree)
    (disk : Bytes) : F.allocCluster (.start { v with disk := disk }) =
      F.allocScan v.nextFree ((v.geo.totalDataClusters + 2) % 2 ^ 32) v.geo.totalDataClusters 0
        (.start { v with disk := disk }) := by
  have hstart : (if 2 ≤ v.nextFree then v.nextFree else 2) = v.nextFree := if_pos (by omega)
  exact congrArg (fun start => F.allocScan start _ _ 0 _) hstart

include hsound hhint

/-- A hint far behind the clusters: the first candidate is no data cluster, although all of them
are free. -/
theorem not_allocatesFree_far (F : Faults) (hbits : v.nextFree < 2 ^ 32)
    (hfar : 2 * v.geo.totalDataClusters + 2 ≤ v.nextFree) :
    ¬ AllocatesFree F { v with disk := fun _ => 0 } := by
  intro hok
  have hroot := hsound.root
  unfold Geometry.IsData at hroot
  obtain ⟨n, hn⟩ : ∃ n, v.geo.totalDataClusters = n + 1 := ⟨v.geo.totalDataClusters - 1, by omega⟩
  have hfirst : (F.allocCluster (.start { v with disk := fun _ => 0 })).2 = 0 ∨
      (F.allocCluster (.start { v with disk := fun _ => 0 })).2 =
        v.nextFree - v.geo.totalDataClusters := by
    have hcandidate := allocCandidate_of_hint (i := 0) (by omega) hhint hbits
    rw [allocCluster_of_hint F hhint, ← Nat.add_zero v.nextFree, ← hcandidate, hn]
    exact Faults.allocScan_zeros rfl
  rcases hfirst with hzero | heq
  · have hsecond : v.geo.IsData 2 := ⟨le_rfl, by omega⟩
    refine hok.full hzero 2 hsecond ?_
    rw [← Fat32.fatRead_eq (v := { v with disk := fun _ => 0 }) hsecond.2]
    rfl
  · have hdata := (hok.taken (by rw [heq]; omega)).1
    rw [heq] at hdata
    have hlt : v.nextFree - v.geo.totalDataClusters < v.geo.totalDataClusters + 2 := hdata.2
    omega

/-- A hint a little behind the clusters: the second cluster is free, but no candidate. -/
theorem not_allocatesFree_near (F : Faults)
    (hnear : v.nextFree < 2 * v.geo.totalDataClusters + 2) :
    ¬ AllocatesFree F { v with disk := onlySecondFree v.geo } := by
  intro hok
  have hmarks := hsound.clusters_le
  have hsecond : v.geo.IsData 2 := ⟨le_rfl, by omega⟩
  by_cases hzero : (F.allocCluster (.start { v with disk := onlySecondFree v.geo })).2 = 0
  · exact hok.full hzero 2 hsecond ((fat_onlySecondFree hsecond).mpr rfl)
  · obtain ⟨hdata, hfree, -⟩ := hok.taken hzero
    have htwo := (fat_onlySecondFree hdata).mp hfree
    rw [allocCluster_of_hint F hhint] at hzero htwo
    rcases Faults.allocScan_mem F v.nextFree ((v.geo.totalDataClusters + 2) % 2 ^ 32)
        v.geo.totalDataClusters 0 (.start { v with disk := onlySecondFree v.geo }) with
      hfail | ⟨j, -, hj, heq⟩
    · exact hzero hfail
    · rw [htwo, allocCandidate_of_hint (by omega) hhint (by omega)] at heq
      omega

end Behind

/-! ## The hints of mounting -/

/-- The hint has 32 bits. -/
theorem nextFree_lt_of_mount {frames blocks : ℕ} {disk : Bytes} {root : Vnode}
    (h : fat32Mount frames blocks disk = some (v, root)) : v.nextFree < 2 ^ 32 := by
  have hhints : (fsInfoHints blocks disk (readBpb disk)).2 < 2 ^ 32 := by
    unfold fsInfoHints
    split_ifs
    · split
      · decide
      · split_ifs
        · exact Bytes.le_lt _ _ _
        · decide
    · decide
  unfold fat32Mount Fat32.readBytes at h
  split_ifs at h
  simp only [Nat.zero_add] at h
  split_ifs at h
  split at h
  · cases h
  · obtain ⟨rfl, -⟩ := Prod.mk.inj (Option.some.inj h)
    exact hhints

/-- Whatever the FAT contains, allocation on the mounted volume takes a free data cluster or finds
none, exactly if the hint that mounting took is a cluster or the number behind the last one. -/
theorem alloc_cluster_iff {F : Faults} {v : Volume} {frames : ℕ} {disk : Bytes} {root : Vnode}
    (hmount : fat32Mount frames F.blocks disk = some (v, root)) (hquiet : F.Quiet)
    (hsound : v.geo.Sound) (hfits : v.geo.Fits F.blocks) :
    (∀ fat : Bytes, AllocatesFree F { v with disk := fat }) ↔
      v.nextFree ≤ v.geo.totalDataClusters + 2 := by
  constructor
  · intro hall
    by_contra hhint
    have hbits := nextFree_lt_of_mount hmount
    by_cases hfar : 2 * v.geo.totalDataClusters + 2 ≤ v.nextFree
    · exact not_allocatesFree_far hsound (by omega) F hbits hfar (hall _)
    · exact not_allocatesFree_near hsound (by omega) F (by omega) (hall _)
  · exact fun hhint fat => AllocatesFree.of_hint hquiet hsound hfits hhint

/-- A device on which nothing fails. -/
def Faults.never (blocks : ℕ) : Faults := ⟨blocks, fun _ => false, fun _ => .none, fun _ => false⟩

theorem alloc_cluster_iff_small : ∃ v root, fat32Mount 8 2 (bootDisk smallBpb) = some (v, root) ∧
    ∀ fat : Bytes, AllocatesFree (.never 2) { v with disk := fat } := by
  have hcall : (fat32Mount 8 2 (bootDisk smallBpb)).map (fun r => (r.1.geo, r.1.nextFree)) =
      some (smallBpb.geometry, 2) := by decide
  obtain ⟨⟨v, root⟩, hmount, hdata⟩ := Option.map_eq_some_iff.mp hcall
  obtain ⟨hgeo, hhint⟩ := Prod.mk.inj hdata
  have hsound : v.geo.Sound := by
    rw [show v.geo = smallBpb.geometry from hgeo]
    exact ⟨by decide, by decide, by decide, by decide, by decide, by decide, by decide, by decide⟩
  have hfits : v.geo.Fits 2 := by
    rw [show v.geo = smallBpb.geometry from hgeo]
    decide
  refine ⟨v, root, hmount, (alloc_cluster_iff (F := .never 2) hmount ⟨fun _ => rfl, fun _ => rfl⟩
    hsound hfits).mpr ?_⟩
  rw [show v.nextFree = 2 from hhint]
  omega

/-- A disk with an FSInfo sector whose free count is known and whose hint is unknown. -/
def unknownHintDisk : Bytes :=
  [(512, 0x41615252), (996, 0x61417272), (1000, 8), (1004, 0xFFFFFFFF), (1020, 0xAA550000)].foldl
    (fun (disk : Bytes) (field : ℕ × ℕ) => disk.putLe field.1 4 field.2)
    (bootDisk { smallBpb with rsvdSecCnt := 2, totSec32 := 11, fsInfo := 1 })

/-- All clusters are free, but none is found. -/
theorem alloc_cluster_unknown_hint :
    ∃ v root, fat32Mount 8 2 unknownHintDisk = some (v, root) ∧ v.nextFree = 0xFFFFFFFF ∧
      (Faults.allocCluster (.never 2) (.start v)).2 = 0 ∧ v.geo.IsData 5 ∧ v.fat 5 = 0 := by
  have hcall : (fat32Mount 8 2 unknownHintDisk).map (fun r => (r.1.nextFree,
      (Faults.allocCluster (.never 2) (.start r.1)).2, decide (r.1.geo.IsData 5), r.1.fat 5)) =
      some (0xFFFFFFFF, 0, true, 0) := by decide
  obtain ⟨⟨v, root⟩, hmount, hdata⟩ := Option.map_eq_some_iff.mp hcall
  obtain ⟨hhint, hdata⟩ := Prod.mk.inj hdata
  obtain ⟨hcluster, hdata⟩ := Prod.mk.inj hdata
  obtain ⟨hfive, hfree⟩ := Prod.mk.inj hdata
  exact ⟨v, root, hmount, hhint, hcluster, of_decide_eq_true hfive, hfree⟩

end Tomahawk.Fat32
