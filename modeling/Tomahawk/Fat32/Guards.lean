import Tomahawk.Fat32.Allocation
import Tomahawk.Fat32.Spending

/-!
# Guarded walks

`fat32_chain_length` and `fat32_free_chain` count their steps in 32 bits and stop when there are
more than data clusters. That guards them against cycles, whatever the FAT holds and whichever
accesses fail, unless the volume counts `0xFFFFFFFF` clusters: no counter is larger, and
`fat32_mount` accepts a boot sector with a data region behind the end of the volume, for which it
computes that number. It also accepts volumes without a FAT, with copies of the FAT that are too
short for the clusters, and with clusters whose numbers are marks; there chains are not counted
or freed as they should be.
-/

namespace Tomahawk.Fat32

open Tomahawk.Lib

/-- The loop of `fat32_chain_length` with its counter; `none` when it takes more turns. -/
def Faults.chainLengthTurns (F : Faults) : ℕ → Call → ℕ → ℕ → Option (Call × ℕ)
  | 0, _, _, _ => .none
  | turns + 1, s, cur, count =>
    if 2 ≤ cur ∧ ¬ isEoc cur ∧ cur ≠ clusterBad then
      let count := (count + 1) % 2 ^ 32
      match F.fatRead s cur with
      | (s, next) =>
        if next = 0 ∨ s.vol.geo.totalDataClusters < count then some (s, count)
        else chainLengthTurns F turns s next count
    else some (s, count)

/-- The loop of `fat32_free_chain` with its counter; `none` when it takes more turns. -/
def Faults.freeTurns (F : Faults) : ℕ → Call → ℕ → ℕ → Option (Call × Bool)
  | 0, _, _, _ => .none
  | turns + 1, s, cur, safety =>
    if 2 ≤ cur ∧ ¬ isEoc cur ∧ cur ≠ clusterBad then
      match F.fatRead s cur with
      | (s, next) =>
        match F.fatWrite s cur 0 with
        | (s, false) => some (s, false)
        | (s, true) =>
          let s := { s with vol := { s.vol with
            freeCount := if s.vol.freeCount ≠ 0xFFFFFFFF then (s.vol.freeCount + 1) % 2 ^ 32
              else s.vol.freeCount } }
          if s.vol.geo.totalDataClusters < (safety + 1) % 2 ^ 32 then some (s, true)
          else freeTurns F turns s next ((safety + 1) % 2 ^ 32)
    else some (s, true)

/-- `fat32_follow_chain`: the cluster after `n` links, or 0. -/
def followChain (v : Volume) : ℕ → ℕ → ℕ
  | 0, cur => cur
  | n + 1, cur =>
    let cur := fatRead v cur
    if cur = 0 ∨ isEoc cur ∨ cur = clusterBad then 0 else followChain v n cur

/-- The loops end within the turns that the guard allows, with what the functions return. Without
failures a chain is counted, freed and followed exactly. -/
structure WalksGuarded (g : Geometry) : Prop where
  stop : ∀ (F : Faults) (s : Call) (start : ℕ), s.vol.geo = g →
    F.chainLengthTurns (g.totalDataClusters + 1) s start 0 = some (F.chainLength s start) ∧
      F.freeTurns (g.totalDataClusters + 1) s start 0 = some (F.freeChain s start)
  chain : ∀ (v : Volume) (start : ℕ) (l : List ℕ), v.geo = g → v.Chain start l → l.Nodup → l ≠ [] →
    chainLength v start = l.length ∧
      ((freeChain v start).fat = fun c => if c ∈ l then 0 else v.fat c) ∧
      ∀ n, followChain v n start ≠ 0 ↔ n < l.length

variable {F : Faults} {s : Call} {v : Volume} {c cur turns count : ℕ} {l : List ℕ}

section Guard

variable (htotal : s.vol.geo.totalDataClusters + 1 < 2 ^ 32)
  (hcount : count + turns = s.vol.geo.totalDataClusters)
include htotal hcount

/-- In the last turn that is allowed the counter passes the number of clusters. -/
theorem Faults.chainLengthTurns_eq : F.chainLengthTurns (turns + 1) s cur count =
    some (F.chainLengthLoop (turns + 1) s cur count) := by
  induction turns using Nat.strongRecOn generalizing s cur count with
  | ind turns ih =>
    have hvol := (reads_fatRead F s cur).vol
    rw [chainLengthTurns, chainLengthLoop]
    split
    · simp only [Nat.mod_eq_of_lt (show count + 1 < 2 ^ 32 by omega)]
      by_cases hzero : (F.fatRead s cur).2 = 0
      · rw [if_pos (.inl hzero), if_pos hzero]
      · rw [if_neg hzero, hvol]
        rcases turns with _ | turns
        · rw [if_pos (by omega)]
          rfl
        · rw [if_neg (by omega)]
          exact ih turns (Nat.lt_succ_self _) (by rwa [hvol]) (by rw [hvol]; omega)
    · rfl

theorem Faults.freeTurns_eq : F.freeTurns (turns + 1) s cur count =
    some (F.freeLoop (turns + 1) s cur) := by
  induction turns using Nat.strongRecOn generalizing s cur count with
  | ind turns ih =>
    have hvol := (reads_fatRead F s cur).vol
    rw [freeTurns, freeLoop]
    split
    · generalize F.fatRead s cur = r at hvol ⊢
      rcases hwrite : F.fatWrite r.1 cur 0 with ⟨t, _ | _⟩
      · simp only [hwrite]
      · have hgeo : t.vol.geo = s.vol.geo := by rw [(spends_fatWrite hwrite).geo, hvol]
        simp only [hwrite, Nat.mod_eq_of_lt (show count + 1 < 2 ^ 32 by omega)]
        rw [← hgeo] at htotal hcount
        rcases turns with _ | turns
        · rw [if_pos (by omega)]
          rfl
        · rw [if_neg (by omega)]
          exact ih turns (Nat.lt_succ_self _) htotal (by simp only; omega)
    · rfl

end Guard

/-- A cycle of one cluster on a volume with the largest count. -/
theorem Faults.chainLengthTurns_endless (hread : ∀ k, F.read k = false)
    (hon : s.vol.geo.fatOffset 0 2 + 4 ≤ F.blocks * Block.blockSize)
    (hcycle : Fat32.fatRead s.vol 2 = 2) (htotal : s.vol.geo.totalDataClusters = 2 ^ 32 - 1) :
    F.chainLengthTurns turns s 2 count = .none := by
  induction turns generalizing s count with
  | zero => rfl
  | succ turns ih =>
    rw [chainLengthTurns, if_pos (by decide), fatRead_of_ok (hread _) hon, hcycle]
    dsimp only
    rw [if_neg (by omega)]
    exact ih hon hcycle htotal

/-- Following a chain. -/
theorem Volume.Chain.followChain_ne_zero (h : v.Chain c l) (hl : l ≠ []) (hok : v.geo.EntriesOk)
    (n : ℕ) : followChain v n c ≠ 0 ↔ n < l.length := by
  induction l generalizing c n with
  | nil => exact absurd rfl hl
  | cons x xs ih =>
    have hread := h.fatRead_eq (x := x) (by simp)
    obtain ⟨rfl, hx, hxs⟩ := h
    cases n with
    | zero =>
      have := hx.1
      simp only [followChain, List.length_cons]
      omega
    | succ n =>
      simp only [followChain, hread, List.length_cons, Nat.add_lt_add_iff_right]
      cases xs with
      | nil =>
        have hstop : isEoc (v.fat c) := hxs
        simp [hstop]
      | cons y ys =>
        have hy : v.geo.IsData (v.fat c) := hxs.1 ▸ hxs.2.1
        have hgo : ¬ (v.fat c = 0 ∨ isEoc (v.fat c) ∨ v.fat c = clusterBad) := by
          rintro (hzero | heoc | hbad)
          · have := hy.1
            omega
          · exact hok.stop _ hy heoc
          · exact hok.ne_bad hy hbad
        rw [if_neg hgo]
        exact ih hxs (List.cons_ne_nil y ys) n

/-! ## Other geometries -/

/-- Every entry of every copy is an end mark. -/
def endMarks (g : Geometry) : Volume := ⟨g, 0, 2, fun _ => 255⟩

theorem fatRead_endMarks (g : Geometry) (c : ℕ) : fatRead (endMarks g) c = clusterEoc := by
  simp only [fatRead, endMarks, Bytes.le]
  decide

theorem fat_endMarks {g : Geometry} (hc : c < g.totalDataClusters + 2) :
    (endMarks g).fat c = clusterEoc := by
  rw [← Fat32.fatRead_eq (v := endMarks g) hc, fatRead_endMarks]

/-- Each data cluster is a chain of its own. -/
theorem chain_endMarks {g : Geometry} (hc : g.IsData c) : (endMarks g).Chain c [c] := by
  refine ⟨rfl, hc, ?_⟩
  rw [fat_endMarks hc.2]
  exact isEoc_clusterEoc

/-- Freeing the first cluster ends after one turn. -/
theorem freeChain_endMarks {g : Geometry} (hg : g.totalDataClusters ≠ 0) :
    freeChain (endMarks g) 2 = freeCluster (endMarks g) 2 := by
  obtain ⟨n, hn⟩ := Nat.exists_eq_succ_of_ne_zero hg
  rw [freeChain, show (endMarks g).geo.totalDataClusters = n + 1 from hn, freeLoop,
    if_pos (by decide), fatRead_endMarks, freeLoop, if_neg (by decide)]

/-- An entry with a byte that is 0 is no end mark. -/
theorem fatRead_ne_of_byte {k : ℕ} (hk : k < 4) (hbyte : v.disk (v.geo.fatOffset 0 c + k) = 0) :
    fatRead v c ≠ clusterEoc := by
  have hbytes := fun j => (v.disk (v.geo.fatOffset 0 c + j)).toNat_lt
  have h0 := hbytes 0
  have h1 := hbytes 1
  have h2 := hbytes 2
  have hzero : (v.disk (v.geo.fatOffset 0 c + k)).toNat = 0 := by rw [hbyte]; rfl
  simp only [fatRead, Bytes.le, clusterEoc, Nat.add_zero, Nat.add_assoc, Nat.reduceAdd] at *
  obtain rfl | rfl | rfl | rfl : k = 0 ∨ k = 1 ∨ k = 2 ∨ k = 3 := by omega
  · rw [Nat.add_zero] at hzero
    omega
  all_goals omega

/-- The second copy begins among the entries of the first one: writing the entry of cluster 2
changes that of another cluster. -/
theorem freeCluster_endMarks_short {g : Geometry} (hfats : 2 ≤ g.numFats)
    (hentry : 4 ≤ g.fatSizeSectors * g.bytesPerSec)
    (hshort : g.fatSizeSectors * g.bytesPerSec < g.totalDataClusters * 4) :
    ∃ c ≠ 2, c < g.totalDataClusters + 2 ∧ (freeCluster (endMarks g) 2).fat c ≠ clusterEoc := by
  set stride := g.fatSizeSectors * g.bytesPerSec with hstride
  refine ⟨2 + stride / 4, by omega, by omega, ?_⟩
  rw [← Fat32.fatRead_eq (v := freeCluster (endMarks g) 2)
    (show 2 + stride / 4 < g.totalDataClusters + 2 by omega)]
  refine fatRead_ne_of_byte (k := stride % 4) (Nat.mod_lt _ (by decide)) ?_
  have hsecond : ∀ i, g.fatOffset i 2 = g.fatStartSector * g.bytesPerSec + i * stride + 8 := by
    intro i
    rw [Geometry.fatOffset, Nat.add_mul, Nat.mul_assoc]
  have hoffset : g.fatOffset 0 (2 + stride / 4) + stride % 4 = g.fatOffset 1 2 := by
    rw [hsecond, Geometry.fatOffset, Nat.add_mul, Nat.zero_mul, Nat.zero_mul]
    omega
  obtain ⟨n, hn⟩ : ∃ n, g.numFats = n + 2 := ⟨g.numFats - 2, by omega⟩
  change (List.range g.numFats).foldl (fun disk i => putEntry (g.fatOffset i 2) 0 disk) (fun _ => 255)
    (g.fatOffset 0 (2 + stride / 4) + stride % 4) = 0
  rw [hoffset, hn, List.range_eq_range', List.range'_succ, List.range'_succ, List.foldl_cons,
    List.foldl_cons, Nat.zero_add, putEntries_of_disjoint]
  · rw [putEntry, Bytes.putLe, if_pos ⟨le_rfl, by omega⟩, Nat.sub_self, Nat.pow_zero, Nat.div_one]
    refine UInt8.toNat_inj.mp ?_
    rw [UInt8.toNat_ofNat']
    change _ % 256 = 0
    omega
  · intro i hi
    have hmul := Nat.mul_le_mul_right stride (List.mem_range'_1.mp hi).1
    rw [hsecond, hsecond]
    omega

/-- The walks are guarded if and only if there are no clusters, or there is a FAT, further copies
begin behind the entries of the first one, and the numbers of the clusters are no marks. -/
theorem chain_walks_guarded_iff (g : Geometry) (hbits : g.totalDataClusters < 2 ^ 32)
    (hentry : 4 ≤ g.fatSizeSectors * g.bytesPerSec) :
    WalksGuarded g ↔ g.totalDataClusters = 0 ∨ g.EntriesOk := by
  constructor
  · intro h
    by_contra hnot
    obtain ⟨hzero, hok⟩ := not_or.mp hnot
    have hdata : g.IsData 2 := ⟨le_rfl, by omega⟩
    obtain ⟨-, hfreed, -⟩ := h.chain (endMarks g) 2 [2] rfl (chain_endMarks hdata) (by simp) (by simp)
    rw [freeChain_endMarks hzero] at hfreed
    have hfats : 1 ≤ g.numFats := by
      by_contra hnone
      have hsame : (freeCluster (endMarks g) 2).fat = (endMarks g).fat := by
        have hnone : g.numFats = 0 := by omega
        unfold freeCluster fatWrite
        rw [show (endMarks g).geo.numFats = 0 from hnone]
        rfl
      have hfat := congrFun (hfreed.symm.trans hsame) 2
      rw [fat_endMarks hdata.2] at hfat
      cases hfat
    have hmarks : g.totalDataClusters + 2 ≤ clusterBad := by
      by_contra hmany
      have hbad : g.IsData clusterBad := ⟨by decide, by omega⟩
      obtain ⟨hlength, -⟩ := h.chain (endMarks g) clusterBad [clusterBad] rfl (chain_endMarks hbad)
        (by simp) (by simp)
      cases hlength
    refine hok ⟨hfats, ?_, hmarks⟩
    by_contra hcopies
    obtain ⟨hone, hshort⟩ := not_or.mp hcopies
    obtain ⟨c, hne, hc, hchanged⟩ := freeCluster_endMarks_short (by omega) hentry (by omega)
    rw [hfreed] at hchanged
    simp only [List.mem_singleton, hne, if_false] at hchanged
    exact hchanged (fat_endMarks hc)
  · intro hcond
    have htotal : g.totalDataClusters + 1 < 2 ^ 32 := by
      rcases hcond with hzero | hok
      · omega
      · have hmarks : g.totalDataClusters + 2 ≤ 0x0FFFFFF7 := hok.marks
        omega
    refine ⟨fun F s start hgeo => ?_, fun v start l hgeo hchain _ hl => ?_⟩
    · subst hgeo
      exact ⟨Faults.chainLengthTurns_eq htotal (Nat.zero_add _),
        Faults.freeTurns_eq htotal (Nat.zero_add _)⟩
    · subst hgeo
      have hstart := hchain.isData_start hl
      have hok : v.geo.EntriesOk := by
        refine hcond.resolve_left fun hzero => ?_
        have hlow := hstart.1
        have hhigh := hstart.2
        omega
      exact ⟨hchain.chainLength_eq hok, hchain.freeChain_fat hok,
        hchain.followChain_ne_zero hl hok⟩

/-- A volume with two copies of the FAT. -/
theorem chain_walks_guarded_twoFats : WalksGuarded { smallBpb.geometry with numFats := 2 } :=
  (chain_walks_guarded_iff _ (by decide) (by decide)).mpr
    (.inr ⟨by decide, .inr (by decide), by decide⟩)

/-- A volume that is accepted, with a cycle on which `fat32_chain_length` does not return. -/
theorem chain_length_endless :
    ∃ v root, fat32Mount 8 2 (putEntry 520 2 (bootDisk { smallBpb with totSec32 := 1 })) =
      some (v, root) ∧ ∀ turns, (Faults.never 2).chainLengthTurns turns (.start v) 2 0 = .none := by
  have hcall : (fat32Mount 8 2 (putEntry 520 2 (bootDisk { smallBpb with totSec32 := 1 }))).map
      (fun r => (r.1.geo.totalDataClusters, r.1.geo.fatOffset 0 2, Fat32.fatRead r.1 2)) =
        some (2 ^ 32 - 1, 520, 2) := by decide
  obtain ⟨⟨v, root⟩, hmount, hdata⟩ := Option.map_eq_some_iff.mp hcall
  obtain ⟨htotal, hdata⟩ := Prod.mk.inj hdata
  obtain ⟨hoffset, hcycle⟩ := Prod.mk.inj hdata
  refine ⟨v, root, hmount, fun turns => ?_⟩
  refine Faults.chainLengthTurns_endless (fun _ => rfl) ?_ hcycle htotal
  change v.geo.fatOffset 0 2 + 4 ≤ 2 * Block.blockSize
  rw [show v.geo.fatOffset 0 2 = 520 from hoffset]
  decide

end Tomahawk.Fat32
