import Tomahawk.Lib.Bytes
import Mathlib.Tactic.Ring

/-!
# A FAT32 volume

The mount state of `fat32.c` with the bytes of its device, the entries of the FAT and the data
of the clusters. The device is an array of bytes that does not fail, as the block cache presents
it. Every copy of the FAT is written, and the first one is read. On a volume whose regions do
not overlap, `fat` and `data` are independent of each other.
-/

namespace Tomahawk.Fat32

open Function Tomahawk.Lib

/-- The fields of `struct fat32_mount` that stay as mounting computed them. -/
structure Geometry where
  bytesPerSec : ℕ
  secPerClus : ℕ
  fatStartSector : ℕ
  fatSizeSectors : ℕ
  numFats : ℕ
  dataStartSector : ℕ
  totalDataClusters : ℕ
  rootCluster : ℕ
  deriving DecidableEq

/-- `struct fat32_mount`, with the contents of the device. -/
structure Volume where
  geo : Geometry
  freeCount : ℕ
  nextFree : ℕ
  disk : Bytes

/-- `FAT32_CLUSTER_BAD`. -/
def clusterBad : ℕ := 0x0FFFFFF7

/-- `FAT32_CLUSTER_EOC`, the end of a chain. -/
def clusterEoc : ℕ := 0x0FFFFFFF

/-- `FAT32_IS_EOC`. -/
def isEoc (c : ℕ) : Prop := 0x0FFFFFF8 ≤ c % 2 ^ 28

instance (c : ℕ) : Decidable (isEoc c) := inferInstanceAs (Decidable (_ ≤ _))

/-- `cluster_size`. -/
def Geometry.clusterSize (g : Geometry) : ℕ := g.bytesPerSec * g.secPerClus

/-- The offset of an entry in a copy of the FAT. -/
def Geometry.fatOffset (g : Geometry) (fatIdx cluster : ℕ) : ℕ :=
  (g.fatStartSector + fatIdx * g.fatSizeSectors) * g.bytesPerSec + cluster * 4

/-- `FAT32_CLUSTER_TO_OFFSET`. -/
def Geometry.clusterOffset (g : Geometry) (cluster : ℕ) : ℕ :=
  (g.dataStartSector + (cluster - 2) * g.secPerClus) * g.bytesPerSec

/-- `fat32_fat_read`: the low 28 bits of an entry of the first copy. -/
def fatRead (v : Volume) (cluster : ℕ) : ℕ := v.disk.le (v.geo.fatOffset 0 cluster) 4 % 2 ^ 28

/-- Write an entry of one copy. Its top four bits stay. -/
def putEntry (off value : ℕ) (disk : Bytes) : Bytes :=
  disk.putLe off 4 (disk.le off 4 / 2 ^ 28 * 2 ^ 28 + value % 2 ^ 28)

/-- `fat32_fat_write`: write an entry of every copy. -/
def fatWrite (v : Volume) (cluster value : ℕ) : Volume :=
  { v with
    disk := (List.range v.geo.numFats).foldl
      (fun disk i => putEntry (v.geo.fatOffset i cluster) value disk) v.disk }

/-- The buffer into which a cluster was read. -/
def clusterBuf (v : Volume) (cluster : ℕ) : Bytes :=
  fun k => v.disk (v.geo.clusterOffset cluster + k)

/-- `fat32_read_cluster`: the buffer, or failure for a number that is no data cluster. -/
def readCluster (v : Volume) (cluster : ℕ) : Option Bytes :=
  if cluster < 2 then none else some (clusterBuf v cluster)

/-- `fat32_write_cluster`. -/
def writeCluster (v : Volume) (cluster : ℕ) (buf : Bytes) : Option Volume :=
  if cluster < 2 then none
  else some { v with
    disk := v.disk.copyIn (v.geo.clusterOffset cluster) v.geo.clusterSize buf 0 }

/-! ## Sound geometry -/

/-- The numbers of the data clusters. -/
def Geometry.IsData (g : Geometry) (c : ℕ) : Prop := 2 ≤ c ∧ c < g.totalDataClusters + 2

instance (g : Geometry) (c : ℕ) : Decidable (g.IsData c) := instDecidableAnd

/-- Every data cluster has an entry in each copy of the FAT, the regions follow each other, a
cluster fits a page and holds whole directory entries, and numbers of clusters are no marks. -/
structure Geometry.Sound (g : Geometry) : Prop where
  fats : 1 ≤ g.numFats
  entries : (g.totalDataClusters + 2) * 4 ≤ g.fatSizeSectors * g.bytesPerSec
  regions : g.fatStartSector + g.numFats * g.fatSizeSectors ≤ g.dataStartSector
  slots : 32 ∣ g.clusterSize
  twoSlots : 64 ≤ g.clusterSize
  page : g.clusterSize ≤ 4096
  marks : g.totalDataClusters + 2 ≤ clusterBad
  root : g.IsData g.rootCluster

/-- What the walks along chains need: there is a FAT, further copies begin behind the entries of the
first one, and numbers of clusters are no marks. -/
structure Geometry.EntriesOk (g : Geometry) : Prop where
  fats : 1 ≤ g.numFats
  copies : g.numFats = 1 ∨ g.totalDataClusters * 4 ≤ g.fatSizeSectors * g.bytesPerSec
  marks : g.totalDataClusters + 2 ≤ clusterBad

/-- The entry of a cluster, as the driver reads it. -/
def Volume.fat (v : Volume) : ℕ → ℕ :=
  fun c => if c < v.geo.totalDataClusters + 2 then fatRead v c else 0

/-- The bytes of a cluster. -/
def Volume.data (v : Volume) : ℕ → Bytes :=
  fun c k => if v.geo.IsData c ∧ k < v.geo.clusterSize then v.disk (v.geo.clusterOffset c + k) else 0

variable {v : Volume} {g : Geometry} {c c' : ℕ} {i off value k : ℕ} {disk : Bytes}

theorem isEoc_clusterEoc : isEoc clusterEoc := by decide

theorem Geometry.Sound.clusters_le (h : g.Sound) : g.totalDataClusters + 2 ≤ 0x0FFFFFF7 := h.marks

theorem Geometry.Sound.lt_of_isData (h : g.Sound) (hc : g.IsData c) : c < 2 ^ 32 := by
  have hmarks := h.clusters_le
  have hlt := hc.2
  omega

theorem Geometry.Sound.entriesOk (h : g.Sound) : g.EntriesOk :=
  ⟨h.fats, .inr (by have := h.entries; omega), h.marks⟩

/-- No data cluster ends a chain. -/
theorem Geometry.EntriesOk.stop (h : g.EntriesOk) (c : ℕ) (hc : g.IsData c) : ¬ isEoc c := by
  have hmarks : g.totalDataClusters + 2 ≤ 0x0FFFFFF7 := h.marks
  have hlt := hc.2
  unfold isEoc
  omega

theorem Geometry.EntriesOk.ne_bad (h : g.EntriesOk) (hc : g.IsData c) : c ≠ clusterBad := by
  have hmarks := h.marks
  have hlt := hc.2
  omega

theorem Geometry.Sound.not_isEoc (h : g.Sound) (hc : g.IsData c) : ¬ isEoc c :=
  h.entriesOk.stop c hc

theorem Geometry.Sound.clusterSize_pos (h : g.Sound) : 0 < g.clusterSize := by
  have := h.twoSlots
  omega

theorem fatRead_eq (hc : c < v.geo.totalDataClusters + 2) : fatRead v c = v.fat c := by
  rw [Volume.fat, if_pos hc]

theorem Volume.fat_of_not_lt (hc : ¬ c < v.geo.totalDataClusters + 2) : v.fat c = 0 := by
  rw [Volume.fat, if_neg hc]

/-! ## The regions do not overlap -/

/-- The sectors of a copy of the FAT hold the entry of the cluster. -/
def Geometry.HasEntry (g : Geometry) (c : ℕ) : Prop :=
  (c + 1) * 4 ≤ g.fatSizeSectors * g.bytesPerSec

theorem Geometry.Sound.hasEntry (h : g.Sound) (hc : c < g.totalDataClusters + 2) :
    g.HasEntry c := by
  have hentries := h.entries
  unfold Geometry.HasEntry
  omega

/-- The entries of a copy lie in its sectors. -/
theorem Geometry.HasEntry.fatOffset_lt (h : g.HasEntry c) (i : ℕ) :
    g.fatOffset i c + 4 ≤ (g.fatStartSector + (i + 1) * g.fatSizeSectors) * g.bytesPerSec := by
  have hsize : (g.fatStartSector + (i + 1) * g.fatSizeSectors) * g.bytesPerSec =
      (g.fatStartSector + i * g.fatSizeSectors) * g.bytesPerSec +
        g.fatSizeSectors * g.bytesPerSec := by ring
  unfold Geometry.HasEntry at h
  rw [Geometry.fatOffset, hsize]
  omega

/-- A copy ends before the next one begins. -/
theorem Geometry.HasEntry.copies (h : g.HasEntry c) {j : ℕ} (hij : i < j) (c' : ℕ) :
    g.fatOffset i c + 4 ≤ g.fatOffset j c' := by
  refine le_trans (h.fatOffset_lt i) ?_
  unfold Geometry.fatOffset
  have hmul : (i + 1) * g.fatSizeSectors ≤ j * g.fatSizeSectors := Nat.mul_le_mul_right _ hij
  have hmul' := Nat.mul_le_mul_right g.bytesPerSec (Nat.add_le_add_left hmul g.fatStartSector)
  omega

/-- The FAT ends before the data begin. -/
theorem Geometry.Sound.fatOffset_clusterOffset (h : g.Sound) (hi : i < g.numFats)
    (hc : c < g.totalDataClusters + 2) (c' : ℕ) : g.fatOffset i c + 4 ≤ g.clusterOffset c' := by
  refine le_trans ((h.hasEntry hc).fatOffset_lt i) ?_
  refine Nat.mul_le_mul_right _ ?_
  have hmul : (i + 1) * g.fatSizeSectors ≤ g.numFats * g.fatSizeSectors := Nat.mul_le_mul_right _ hi
  have hregions := h.regions
  omega

/-- Clusters lie one after the other. -/
theorem clusterOffset_eq (g : Geometry) (c : ℕ) :
    g.clusterOffset c = g.clusterOffset 2 + (c - 2) * g.clusterSize := by
  unfold Geometry.clusterOffset Geometry.clusterSize
  ring

/-- Different clusters have different bytes. -/
theorem clusterOffset_lt (hc : 2 ≤ c) (hlt : c < c') :
    g.clusterOffset c + g.clusterSize ≤ g.clusterOffset c' := by
  rw [clusterOffset_eq g c, clusterOffset_eq g c']
  have hmul : (c - 2 + 1) * g.clusterSize ≤ (c' - 2) * g.clusterSize :=
    Nat.mul_le_mul_right _ (by omega)
  rw [Nat.add_mul, Nat.one_mul] at hmul
  omega

/-! ## Writing an entry -/

theorem putEntry_of_lt (h : k < off) :
    putEntry off value disk k = disk k := Bytes.putLe_of_lt h

theorem putEntry_of_le (h : off + 4 ≤ k) :
    putEntry off value disk k = disk k := Bytes.putLe_of_le h

/-- The entry that was written is read back without its top bits. -/
theorem le_putEntry (off value : ℕ) (disk : Bytes) :
    (putEntry off value disk).le off 4 % 2 ^ 28 = value % 2 ^ 28 := by
  rw [putEntry, Bytes.le_putLe]
  omega

theorem le_putEntry_of_disjoint {off' : ℕ} (h : off' + 4 ≤ off ∨ off + 4 ≤ off') :
    (putEntry off value disk).le off' 4 = disk.le off' 4 := Bytes.le_putLe_of_disjoint h

@[simp] theorem fatWrite_geo (v : Volume) (c value : ℕ) : (fatWrite v c value).geo = v.geo := rfl

/-- The loop over the copies leaves bytes alone that are in none of the entries. -/
theorem putEntries_of_disjoint (g : Geometry) (value : ℕ) (disk : Bytes) {copies : List ℕ}
    (h : ∀ i ∈ copies, k < g.fatOffset i c ∨ g.fatOffset i c + 4 ≤ k) :
    copies.foldl (fun disk i => putEntry (g.fatOffset i c) value disk) disk k = disk k := by
  induction copies generalizing disk with
  | nil => rfl
  | cons i copies ih =>
    rw [List.foldl_cons, ih _ fun j hj => h j (.tail _ hj)]
    exact (h i List.mem_cons_self).elim putEntry_of_lt putEntry_of_le

/-- The loop over the first copies changes the entry in these, where its top bits stay. -/
theorem le_putEntries (hc : g.HasEntry c) (hc' : g.HasEntry c') (value : ℕ) (disk : Bytes)
    (n i : ℕ) :
    Bytes.le ((List.range n).foldl (fun disk i => putEntry (g.fatOffset i c) value disk) disk)
      (g.fatOffset i c') 4 =
      if i < n ∧ c' = c then disk.le (g.fatOffset i c) 4 / 2 ^ 28 * 2 ^ 28 + value % 2 ^ 28
      else disk.le (g.fatOffset i c') 4 := by
  induction n with
  | zero => rw [if_neg (by omega)]; rfl
  | succ n ih =>
    rw [List.range_succ, List.foldl_append, List.foldl_cons, List.foldl_nil]
    rcases lt_trichotomy i n with hlt | rfl | hgt
    · rw [le_putEntry_of_disjoint (.inl (hc'.copies hlt c)), ih]
      simp only [hlt, Nat.lt_succ_of_lt hlt]
    · by_cases heq : c' = c
      · subst heq
        have hlt := Bytes.le_lt disk (g.fatOffset i c') 4
        rw [putEntry, Bytes.le_putLe, ih, if_neg (by omega), if_pos ⟨Nat.lt_succ_self i, rfl⟩]
        omega
      · rw [le_putEntry_of_disjoint (by unfold Geometry.fatOffset; omega), ih]
        simp only [heq, and_false]
    · rw [le_putEntry_of_disjoint (.inr (hc.copies hgt c')), ih, if_neg (by omega),
        if_neg (by omega)]

/-- Writing an entry of the FAT changes that entry. -/
theorem fat_fatWrite (h : v.geo.EntriesOk) (hc : v.geo.IsData c) (value : ℕ) :
    (fatWrite v c value).fat = update v.fat c (value % 2 ^ 28) := by
  obtain ⟨n, hn⟩ : ∃ n, v.geo.numFats = n + 1 :=
    ⟨v.geo.numFats - 1, by have := h.fats; omega⟩
  -- The later copies are behind the entries of the first one.
  have hfirst : ∀ c' < v.geo.totalDataClusters + 2, fatRead (fatWrite v c value) c' =
      (putEntry (v.geo.fatOffset 0 c) value v.disk).le (v.geo.fatOffset 0 c') 4 % 2 ^ 28 := by
    intro c' hc'
    refine congrArg (· % 2 ^ 28) (Bytes.le_congr fun k _ hk => ?_)
    simp only [fatWrite, hn, List.range_eq_range', List.range'_succ, List.foldl_cons]
    refine putEntries_of_disjoint _ _ _ fun i hi => .inl (lt_of_lt_of_le hk ?_)
    obtain ⟨hlow, hhigh⟩ := List.mem_range'_1.mp hi
    have hcopies := h.copies.resolve_left (by omega)
    have hstride := Nat.mul_le_mul_right (v.geo.fatSizeSectors * v.geo.bytesPerSec) hlow
    rw [← Nat.mul_assoc i] at hstride
    have hdata := hc.1
    simp only [Geometry.fatOffset, fatWrite_geo, Nat.zero_mul, Nat.add_zero, Nat.add_mul]
    omega
  funext c'
  by_cases hc' : c' < v.geo.totalDataClusters + 2
  · rw [← fatRead_eq (v := fatWrite v c value) hc', hfirst c' hc']
    by_cases heq : c' = c
    · rw [heq, update_self, le_putEntry]
    · rw [update_of_ne heq, ← fatRead_eq hc', le_putEntry_of_disjoint, fatRead]
      unfold Geometry.fatOffset
      omega
  · have hne : c' ≠ c := fun heq => hc' (heq ▸ hc.2)
    rw [update_of_ne hne, Volume.fat_of_not_lt hc']
    exact if_neg hc'

/-- The entry of a cluster in a copy of the FAT. -/
def Volume.entry (v : Volume) (i c : ℕ) : ℕ := v.disk.le (v.geo.fatOffset i c) 4

/-- Two copies of the FAT have the same entries. -/
def Volume.SameCopies (v : Volume) (i j : ℕ) : Prop :=
  ∀ c, v.geo.HasEntry c → v.entry i c = v.entry j c

/-- Writing an entry sets its low 28 bits in every copy. The top bits and the other entries stay,
and copies that are equal stay so. -/
theorem fat_write_entry (v : Volume) (c value : ℕ) (hfats : v.geo.numFats ≠ 0)
    (hc : v.geo.HasEntry c) :
    fatRead (fatWrite v c value) c = value % 2 ^ 28 ∧ ∀ i < v.geo.numFats,
      (fatWrite v c value).entry i c / 2 ^ 28 = v.entry i c / 2 ^ 28 ∧
      (∀ c', v.geo.HasEntry c' → c' ≠ c → (fatWrite v c value).entry i c' = v.entry i c') ∧
      ∀ j < v.geo.numFats, v.SameCopies i j → (fatWrite v c value).SameCopies i j := by
  have hentry : ∀ i < v.geo.numFats, ∀ c', v.geo.HasEntry c' →
      (fatWrite v c value).entry i c' =
        if c' = c then v.entry i c / 2 ^ 28 * 2 ^ 28 + value % 2 ^ 28 else v.entry i c' := by
    intro i hi c' hc'
    have hle := le_putEntries hc hc' value v.disk v.geo.numFats i
    simp only [hi, true_and] at hle
    exact hle
  have hnew : ∀ i < v.geo.numFats, (fatWrite v c value).entry i c =
      v.entry i c / 2 ^ 28 * 2 ^ 28 + value % 2 ^ 28 :=
    fun i hi => (hentry i hi c hc).trans (if_pos rfl)
  refine ⟨?_, fun i hi => ⟨?_, fun c' hc' hne => ?_, fun j hj hsame c' hc' => ?_⟩⟩
  · refine (congrArg (· % 2 ^ 28) (hnew 0 (by omega))).trans ?_
    omega
  · rw [hnew i hi]
    omega
  · rw [hentry i hi c' hc', if_neg hne]
  · rw [hentry i hi c' hc', hentry j hj c' hc', hsame c' hc', hsame c hc]

theorem fat_write_entry_mirrored :
    fatRead (fatWrite ⟨⟨512, 1, 1, 1, 2, 3, 8, 2⟩, 0, 2, fun _ => 0xA0⟩ 5 0xF2345678) 5 =
      0x02345678 :=
  (fat_write_entry ⟨⟨512, 1, 1, 1, 2, 3, 8, 2⟩, 0, 2, fun _ => 0xA0⟩ 5 0xF2345678 (by decide)
    (show 24 ≤ 512 by decide)).1

/-- Writing an entry of the FAT changes no data. -/
theorem data_fatWrite (h : v.geo.Sound) (hc : c < v.geo.totalDataClusters + 2) (value : ℕ) :
    (fatWrite v c value).data = v.data := by
  funext c' k
  unfold Volume.data
  rw [fatWrite_geo]
  by_cases hk : v.geo.IsData c' ∧ k < v.geo.clusterSize
  · rw [if_pos hk, if_pos hk]
    refine putEntries_of_disjoint v.geo value v.disk fun i hi => .inr ?_
    have hapart := h.fatOffset_clusterOffset (List.mem_range.mp hi) hc c'
    omega
  · rw [if_neg hk, if_neg hk]

/-! ## Writing a cluster -/

/-- The volume after a cluster was written. -/
def Volume.putCluster (v : Volume) (c : ℕ) (buf : Bytes) : Volume :=
  { v with disk := v.disk.copyIn (v.geo.clusterOffset c) v.geo.clusterSize buf 0 }

@[simp] theorem putCluster_geo (v : Volume) (c : ℕ) (buf : Bytes) :
    (v.putCluster c buf).geo = v.geo := rfl

theorem writeCluster_eq (hc : v.geo.IsData c) (buf : Bytes) :
    writeCluster v c buf = some (v.putCluster c buf) := by
  rw [writeCluster, if_neg (by have := hc.1; omega)]
  rfl

theorem readCluster_eq (hc : v.geo.IsData c) : readCluster v c = some (clusterBuf v c) := by
  rw [readCluster, if_neg (by have := hc.1; omega)]

/-- Reading gives the data of the cluster. -/
theorem clusterBuf_eq (hc : v.geo.IsData c) (hk : k < v.geo.clusterSize) :
    clusterBuf v c k = v.data c k := by
  rw [Volume.data, if_pos ⟨hc, hk⟩, clusterBuf]

/-- Writing a cluster changes no entry of the FAT. -/
theorem fat_putCluster (h : v.geo.Sound) (buf : Bytes) : (v.putCluster c buf).fat = v.fat := by
  funext c'
  by_cases hc' : c' < v.geo.totalDataClusters + 2
  · rw [← fatRead_eq hc', ← fatRead_eq (v := v.putCluster c buf) hc']
    unfold fatRead
    congr 1
    refine Bytes.le_congr fun k hk hk' => ?_
    rw [putCluster_geo] at hk hk'
    have hapart := h.fatOffset_clusterOffset (i := 0) h.fats hc' c
    exact Bytes.copyIn_of_lt (by omega)
  · rw [Volume.fat_of_not_lt hc', Volume.fat_of_not_lt (v := v.putCluster c buf) hc']

/-- Writing a cluster changes the data of that cluster. -/
theorem data_putCluster (hc : v.geo.IsData c) (buf : Bytes) :
    (v.putCluster c buf).data = update v.data c
      fun k => if k < v.geo.clusterSize then buf k else 0 := by
  funext c' k
  by_cases hk : v.geo.IsData c' ∧ k < v.geo.clusterSize
  · have hdata : (v.putCluster c buf).data c' k =
        (v.putCluster c buf).disk (v.geo.clusterOffset c' + k) := if_pos hk
    rw [hdata]
    by_cases heq : c' = c
    · subst heq
      rw [update_self, if_pos hk.2]
      have hbyte : (v.putCluster c' buf).disk (v.geo.clusterOffset c' + k) =
          buf (0 + (v.geo.clusterOffset c' + k - v.geo.clusterOffset c')) :=
        Bytes.copyIn_of_mem (by omega) (by omega)
      rw [hbyte, Nat.add_sub_cancel_left, Nat.zero_add]
    · rw [update_of_ne heq, Volume.data, if_pos hk]
      rcases Nat.lt_or_gt_of_ne heq with hlt | hgt
      · have hapart := clusterOffset_lt (g := v.geo) hk.1.1 hlt
        exact Bytes.copyIn_of_lt (by omega)
      · have hapart := clusterOffset_lt (g := v.geo) hc.1 hgt
        exact Bytes.copyIn_of_le (by omega)
  · have hzero : (v.putCluster c buf).data c' k = 0 := if_neg hk
    rw [hzero]
    by_cases heq : c' = c
    · subst heq
      rw [update_self, if_neg fun hlt => hk ⟨hc, hlt⟩]
    · rw [update_of_ne heq, Volume.data, if_neg hk]

end Tomahawk.Fat32
