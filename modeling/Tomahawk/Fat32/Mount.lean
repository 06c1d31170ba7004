import Tomahawk.Fat32.Integrity
import Tomahawk.Block.Cache

/-!
# Mounting a FAT32 volume

`fat32_mount` computes the geometry from the boot sector, with 32-bit sums and differences. It
looks at the signature and that some fields are not zero, but not at whether the regions lie
behind each other and on the device. The layout is consistent exactly if the fields of the boot
sector say so.
-/

namespace Tomahawk.Fat32

open Tomahawk.Lib

/-- `fat32_read_bytes` on a device of some blocks that does not fail: the bytes from an offset on,
if the device has so many. -/
def readBytes (blocks : ℕ) (disk : Bytes) (offset count : ℕ) : Option Bytes :=
  if offset + count ≤ blocks * Block.blockSize then some fun k => disk (offset + k) else none

/-- The fields of `struct fat32_bpb` that mounting reads. -/
structure Bpb where
  bytsPerSec : ℕ
  secPerClus : ℕ
  rsvdSecCnt : ℕ
  numFats : ℕ
  rootEntCnt : ℕ
  totSec16 : ℕ
  totSec32 : ℕ
  fatSz32 : ℕ
  rootClus : ℕ
  fsInfo : ℕ
  deriving DecidableEq

/-- The fields at their offsets in the boot sector. -/
def readBpb (sector : Bytes) : Bpb where
  bytsPerSec := sector.le 11 2
  secPerClus := sector.le 13 1
  rsvdSecCnt := sector.le 14 2
  numFats := sector.le 16 1
  rootEntCnt := sector.le 17 2
  totSec16 := sector.le 19 2
  totSec32 := sector.le 32 4
  fatSz32 := sector.le 36 4
  rootClus := sector.le 44 4
  fsInfo := sector.le 48 2

/-- `total_sectors`. -/
def Bpb.totalSectors (b : Bpb) : ℕ := if b.totSec32 ≠ 0 then b.totSec32 else b.totSec16

/-- `data_start_sector`. The product and the sum have 32 bits. -/
def Bpb.dataStart (b : Bpb) : ℕ := (b.rsvdSecCnt + b.numFats * b.fatSz32 % 2 ^ 32) % 2 ^ 32

/-- The geometry that mounting computes. The difference has 32 bits. -/
def Bpb.geometry (b : Bpb) : Geometry where
  bytesPerSec := b.bytsPerSec
  secPerClus := b.secPerClus
  fatStartSector := b.rsvdSecCnt
  fatSizeSectors := b.fatSz32
  numFats := b.numFats
  dataStartSector := b.dataStart
  totalDataClusters := (b.totalSectors + 2 ^ 32 - b.dataStart) % 2 ^ 32 / b.secPerClus
  rootCluster := b.rootClus

/-- The free count and the hint of the FSInfo sector, if there is one with its signatures. -/
def fsInfoHints (blocks : ℕ) (disk : Bytes) (b : Bpb) : ℕ × ℕ :=
  if b.fsInfo ≠ 0 ∧ b.fsInfo ≠ 0xFFFF then
    match readBytes blocks disk (b.fsInfo * b.bytsPerSec) 512 with
    | none => (0xFFFFFFFF, 2)
    | some fsinfo =>
      if fsinfo.le 0 4 = 0x41615252 ∧ fsinfo.le 484 4 = 0x61417272 ∧ fsinfo.le 508 4 = 0xAA550000
      then (fsinfo.le 488 4, fsinfo.le 492 4)
      else (0xFFFFFFFF, 2)
  else (0xFFFFFFFF, 2)

/-- `fat32_mount`: the volume and the vnode of its root directory. -/
def fat32Mount (frames blocks : ℕ) (disk : Bytes) : Option (Volume × Vnode) :=
  if frames = 0 then none
  else
    match readBytes blocks disk 0 512 with
    | none => none
    | some sector =>
      if sector.le 510 2 ≠ 0xAA55 then none
      else
        let b := readBpb sector
        if b.bytsPerSec = 0 ∨ b.secPerClus = 0 then none
        else if b.rootEntCnt ≠ 0 then none
        else if b.fatSz32 = 0 then none
        else
          let hints := fsInfoHints blocks disk b
          match createVnode (frames - 1) (rootVnode b.geometry) with
          | none => none
          | some root => some (⟨b.geometry, hints.1, hints.2, disk⟩, root)

/-! ## The layout -/

/-- The data region begins in the volume, every data cluster lies on the device and has its entry
in a copy of the FAT, the copies and the data region do not overlap, the root directory has a data
cluster, and a cluster fits a page. The copy `i` lies between `fatOffset i 0` and
`fatOffset (i + 1) 0`. -/
structure LayoutOk (deviceBytes totalSectors : ℕ) (g : Geometry) : Prop where
  start : g.dataStartSector ≤ totalSectors
  device : ∀ c, g.IsData c → g.clusterOffset c + g.clusterSize ≤ deviceBytes
  entry : ∀ c, g.IsData c → ∃ i < g.numFats,
    g.fatOffset i 0 ≤ g.fatOffset i c ∧ g.fatOffset i c + 4 ≤ g.fatOffset (i + 1) 0
  apart : g.fatOffset g.numFats 0 ≤ g.clusterOffset 2 ∨
    g.clusterOffset (g.totalDataClusters + 2) ≤ g.fatOffset 0 0
  root : g.IsData g.rootCluster
  page : g.clusterSize ≤ 4096

/-- The sectors in front of the data region. -/
def Bpb.metaSectors (b : Bpb) : ℕ := b.rsvdSecCnt + b.numFats * b.fatSz32

/-- The number of clusters behind a sector. -/
def Bpb.clustersFrom (b : Bpb) (start : ℕ) : ℕ := (b.totalSectors - start) / b.secPerClus

/-- The fields of the boot sector fit each other and the device when the data region begins at
the sector `start`. -/
structure Bpb.FitsFrom (b : Bpb) (deviceBytes start : ℕ) : Prop where
  fats : 1 ≤ b.numFats
  page : b.bytsPerSec * b.secPerClus ≤ 4096
  volume : start ≤ b.totalSectors
  root : 2 ≤ b.rootClus ∧ b.rootClus < b.clustersFrom start + 2
  entries : (b.clustersFrom start + 2) * 4 ≤ b.fatSz32 * b.bytsPerSec
  device : (start + b.clustersFrom start * b.secPerClus) * b.bytsPerSec ≤ deviceBytes

/-- The data region lies behind the FATs. Or the number of sectors in front of it has more than 32
bits, and its low 32 bits are a place for the data region in the reserved sectors. -/
def Bpb.Fits (b : Bpb) (deviceBytes : ℕ) : Prop :=
  b.FitsFrom deviceBytes b.metaSectors ∨
    2 ^ 32 ≤ b.metaSectors ∧ b.FitsFrom deviceBytes (b.metaSectors % 2 ^ 32) ∧
      b.metaSectors % 2 ^ 32 + b.clustersFrom (b.metaSectors % 2 ^ 32) * b.secPerClus ≤ b.rsvdSecCnt

variable {b : Bpb} {deviceBytes frames blocks : ℕ} {disk : Bytes} {v : Volume} {root : Vnode}

/-- The values of the fields have the sizes of their types, and those that mounting checks are
not zero. -/
structure Bpb.Accepted (b : Bpb) : Prop where
  bytsPerSec : 0 < b.bytsPerSec
  secPerClus : 0 < b.secPerClus
  rsvdSecCnt : b.rsvdSecCnt < 2 ^ 16
  totalSectors : b.totalSectors < 2 ^ 32

theorem accepted_of_mount (h : fat32Mount frames blocks disk = some (v, root)) :
    (readBpb disk).Accepted ∧ v.geo = (readBpb disk).geometry ∧ v.disk = disk := by
  unfold fat32Mount readBytes at h
  split_ifs at h
  simp only [Nat.zero_add] at h
  split_ifs at h with _ hfields
  obtain ⟨hbytes, hclus⟩ := not_or.mp hfields
  split at h
  · cases h
  obtain ⟨rfl, -⟩ := Prod.mk.inj (Option.some.inj h)
  refine ⟨⟨Nat.pos_of_ne_zero hbytes, Nat.pos_of_ne_zero hclus, Bytes.le_lt disk 14 2, ?_⟩, rfl, rfl⟩
  have h16 := Bytes.le_lt disk 19 2
  have h32 := Bytes.le_lt disk 32 4
  unfold Bpb.totalSectors readBpb
  dsimp only
  split_ifs <;> omega

theorem Bpb.dataStart_eq (b : Bpb) : b.dataStart = b.metaSectors % 2 ^ 32 := by
  unfold Bpb.dataStart Bpb.metaSectors
  omega

theorem Bpb.Accepted.clusters_eq (h : b.Accepted) (hstart : b.dataStart ≤ b.totalSectors) :
    b.geometry.totalDataClusters = b.clustersFrom b.dataStart := by
  have hlt := h.totalSectors
  change (b.totalSectors + 2 ^ 32 - b.dataStart) % 2 ^ 32 / b.secPerClus = _
  rw [show (b.totalSectors + 2 ^ 32 - b.dataStart) % 2 ^ 32 = b.totalSectors - b.dataStart by omega]
  rfl

/-- The end of the data region. -/
theorem clusterOffset_end (g : Geometry) (n : ℕ) :
    g.clusterOffset (n + 2) = (g.dataStartSector + n * g.secPerClus) * g.bytesPerSec := by
  rw [Geometry.clusterOffset, Nat.add_sub_cancel]

/-- The clusters lie behind each other. -/
theorem clusterOffset_next (g : Geometry) (n : ℕ) :
    g.clusterOffset (n + 2) + g.clusterSize = g.clusterOffset (n + 1 + 2) := by
  rw [clusterOffset_end, clusterOffset_end, Geometry.clusterSize]
  ring

/-- The entry of a cluster lies in a copy of the FAT if the copies are long enough. -/
theorem fatOffset_entry (g : Geometry) (i c : ℕ) :
    g.fatOffset i c + 4 ≤ g.fatOffset (i + 1) 0 ↔
      (c + 1) * 4 ≤ g.fatSizeSectors * g.bytesPerSec := by
  have hcopy : (g.fatStartSector + (i + 1) * g.fatSizeSectors) * g.bytesPerSec =
      (g.fatStartSector + i * g.fatSizeSectors) * g.bytesPerSec +
        g.fatSizeSectors * g.bytesPerSec := by ring
  unfold Geometry.fatOffset
  omega

/-- The layout is consistent if the data region, where mounting puts it, fits. -/
theorem Bpb.Accepted.layoutOk_iff (h : b.Accepted) :
    LayoutOk deviceBytes b.totalSectors b.geometry ↔
      b.FitsFrom deviceBytes b.dataStart ∧ (b.metaSectors ≤ b.dataStart ∨
        b.dataStart + b.clustersFrom b.dataStart * b.secPerClus ≤ b.rsvdSecCnt) := by
  have hapart (n : ℕ) : b.geometry.fatOffset b.numFats 0 ≤ b.geometry.clusterOffset (0 + 2) ∨
      b.geometry.clusterOffset (n + 2) ≤ b.geometry.fatOffset 0 0 ↔
      b.metaSectors ≤ b.dataStart ∨ b.dataStart + n * b.secPerClus ≤ b.rsvdSecCnt := by
    rw [clusterOffset_end, clusterOffset_end]
    simp only [Geometry.fatOffset, Nat.zero_mul, Nat.add_zero]
    exact or_congr (Nat.mul_le_mul_right_iff h.bytsPerSec) (Nat.mul_le_mul_right_iff h.bytsPerSec)
  constructor
  · intro hl
    have hclusters := h.clusters_eq hl.start
    have hroot := hl.root
    unfold Geometry.IsData at hroot
    rw [hclusters] at hroot
    -- The last data cluster.
    obtain ⟨n, hn⟩ : ∃ n, b.clustersFrom b.dataStart = n + 1 :=
      ⟨b.clustersFrom b.dataStart - 1, by omega⟩
    have hlast : b.geometry.IsData (n + 2) := ⟨by omega, by rw [hclusters]; omega⟩
    obtain ⟨i, hi, -, hentry⟩ := hl.entry (n + 2) hlast
    have hdevice := hl.device (n + 2) hlast
    rw [clusterOffset_next, clusterOffset_end, ← hn] at hdevice
    rw [fatOffset_entry, show n + 2 + 1 = b.clustersFrom b.dataStart + 2 by omega] at hentry
    refine ⟨⟨Nat.one_le_of_lt hi, hl.page, hl.start, hroot, hentry, hdevice⟩, ?_⟩
    rw [← hclusters]
    exact (hapart _).mp hl.apart
  · rintro ⟨hf, hregions⟩
    have hclusters := h.clusters_eq hf.volume
    have hentries := hf.entries
    refine ⟨hf.volume, fun c hc => ?_, fun c hc => ⟨0, hf.fats, ?_, ?_⟩, ?_, ?_, hf.page⟩
    · obtain ⟨hlow, hhigh⟩ := hc
      obtain ⟨m, rfl⟩ : ∃ m, c = m + 2 := ⟨c - 2, by omega⟩
      rw [clusterOffset_next, clusterOffset_end]
      refine le_trans (Nat.mul_le_mul_right _ (Nat.add_le_add_left ?_ _)) hf.device
      exact Nat.mul_le_mul_right _ (by omega)
    · unfold Geometry.fatOffset
      omega
    · have hhigh := hc.2
      rw [fatOffset_entry]
      change (c + 1) * 4 ≤ b.fatSz32 * b.bytsPerSec
      omega
    · rw [hclusters]
      exact (hapart _).mpr hregions
    · unfold Geometry.IsData
      rw [hclusters]
      exact hf.root

/-- The layout of a mounted volume is consistent if and only if the fields of its boot sector fit
each other and the device. -/
theorem fat32_mount_layout_iff (h : fat32Mount frames blocks disk = some (v, root)) :
    LayoutOk (blocks * Block.blockSize) (readBpb disk).totalSectors v.geo ↔
      (readBpb disk).Fits (blocks * Block.blockSize) := by
  obtain ⟨haccepted, hgeo, -⟩ := accepted_of_mount h
  have htotal := haccepted.totalSectors
  rw [hgeo, haccepted.layoutOk_iff, Bpb.dataStart_eq, Bpb.Fits]
  constructor
  · rintro ⟨hf, hapart⟩
    by_cases hlt : (readBpb disk).metaSectors < 2 ^ 32
    · rw [Nat.mod_eq_of_lt hlt] at hf
      exact .inl hf
    · exact .inr ⟨by omega, hf, hapart.resolve_left (by omega)⟩
  · rintro (hf | ⟨hge, hf, hapart⟩)
    · have hvolume := hf.volume
      rw [Nat.mod_eq_of_lt (by omega)]
      exact ⟨hf, .inl le_rfl⟩
    · exact ⟨hf, .inr hapart⟩

/-- A volume whose boot sector fits is sound, if its clusters hold whole directory entries and their
numbers are no marks. -/
theorem Bpb.FitsFrom.sound (hf : b.FitsFrom deviceBytes b.metaSectors) (h : b.Accepted)
    (hslots : 32 ∣ b.bytsPerSec * b.secPerClus) (htwo : 64 ≤ b.bytsPerSec * b.secPerClus)
    (hmarks : b.clustersFrom b.metaSectors + 2 ≤ clusterBad) : b.geometry.Sound := by
  have hvolume := hf.volume
  have htotal := h.totalSectors
  have hstart : b.dataStart = b.metaSectors := by
    rw [b.dataStart_eq, Nat.mod_eq_of_lt (by omega)]
  have hclusters : b.geometry.totalDataClusters = b.clustersFrom b.metaSectors := by
    rw [h.clusters_eq (by omega), hstart]
  refine ⟨hf.fats, ?_, ?_, hslots, htwo, hf.page, ?_, ?_⟩
  · rw [hclusters]
    exact hf.entries
  · exact hstart.ge
  · rw [hclusters]
    exact hmarks
  · unfold Geometry.IsData
    rw [hclusters]
    exact hf.root

/-! ## Boot sectors -/

/-- A disk with only a boot sector. -/
def bootDisk (b : Bpb) : Bytes :=
  [(11, 2, b.bytsPerSec), (13, 1, b.secPerClus), (14, 2, b.rsvdSecCnt), (16, 1, b.numFats),
    (17, 2, b.rootEntCnt), (19, 2, b.totSec16), (32, 4, b.totSec32), (36, 4, b.fatSz32),
    (44, 4, b.rootClus), (48, 2, b.fsInfo), (510, 2, 0xAA55)].foldl
    (fun (disk : Bytes) (field : ℕ × ℕ × ℕ) => disk.putLe field.1 field.2.1 field.2.2) fun _ => 0

/-- Ten sectors of 512 bytes: the boot sector, one FAT of one sector, and eight clusters. -/
def smallBpb : Bpb := ⟨512, 1, 1, 1, 0, 0, 10, 1, 2, 0⟩

theorem fat32_mount_layout_small :
    ∃ v root, fat32Mount 8 2 (bootDisk smallBpb) = some (v, root) ∧
      LayoutOk (2 * Block.blockSize) 10 v.geo := by
  have hcall : (fat32Mount 8 2 (bootDisk smallBpb)).isSome = true := by decide
  obtain ⟨⟨v, root⟩, hmount⟩ := Option.isSome_iff_exists.mp hcall
  have hbpb : readBpb (bootDisk smallBpb) = smallBpb := by decide
  have hlayout := fat32_mount_layout_iff hmount
  exact ⟨v, root, hmount, hlayout.mpr
    (.inl ⟨by decide, by decide, by decide, by decide, by decide, by decide⟩)⟩

/-- A boot sector with clusters of 8192 bytes is accepted, and so is one whose data region begins
behind the end of the volume. -/
theorem fat32_mount_accepts_bad_layouts :
    (∃ v root, fat32Mount 8 2 (bootDisk { smallBpb with secPerClus := 16, totSec32 := 100 }) =
        some (v, root) ∧ v.geo.clusterSize = 8192) ∧
      ∃ v root, fat32Mount 8 2 (bootDisk { smallBpb with totSec32 := 1 }) = some (v, root) ∧
        v.geo.dataStartSector = 2 ∧ v.geo.totalDataClusters = 2 ^ 32 - 1 := by
  constructor
  · have hcall : (fat32Mount 8 2 (bootDisk { smallBpb with secPerClus := 16, totSec32 := 100 })).map
        (fun r => r.1.geo.clusterSize) = some 8192 := by decide
    obtain ⟨⟨v, root⟩, hmount, hsize⟩ := Option.map_eq_some_iff.mp hcall
    exact ⟨v, root, hmount, hsize⟩
  · have hcall : (fat32Mount 8 2 (bootDisk { smallBpb with totSec32 := 1 })).map
        (fun r => (r.1.geo.dataStartSector, r.1.geo.totalDataClusters)) =
          some (2, 2 ^ 32 - 1) := by decide
    obtain ⟨⟨v, root⟩, hmount, hdata⟩ := Option.map_eq_some_iff.mp hcall
    obtain ⟨hstart, hclusters⟩ := Prod.mk.inj hdata
    exact ⟨v, root, hmount, hstart, hclusters⟩

end Tomahawk.Fat32
