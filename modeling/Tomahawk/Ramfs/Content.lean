import Tomahawk.Ramfs.Data

/-!
# The contents of one ramfs file

`ramfs_read` returns the beginning of the file, whatever was read before, and `ramfs_write`
replaces the whole file, whatever was written before.
-/

namespace Tomahawk.Ramfs

open Function Tomahawk.Lib Tomahawk.Block

variable {env : Devices} {dev : DevPtr} {st st' : RamFiles} {flat : Flat} {f nbyte : ℕ}
  {content : List UInt8} {n : ℕ}

/-- The bytes of a file when the device is the array `flat`. -/
def FileInode.bytes (ip : FileInode) (flat : Flat) : List UInt8 :=
  if ip.iBdev ≠ 0 ∧ 0 < ip.iBlocks then
    (flat ip.iBdev).slice (ip.iStartBlock * blockSize) ip.iSize
  else
    match ip.cachePage with
    | none => []
    | some page => page.slice 0 ip.iSize

/-- The file `f` has these contents, and its run of blocks is on the device. -/
structure RamFile (env : Devices) (dev : DevPtr) (st : RamFiles) (f : ℕ)
    (content : List UInt8) : Prop where
  lt : f < st.count
  size : (st.inodes f).iSize = content.length
  onDevice : (st.inodes f).iBlocks ≠ 0 →
    (st.inodes f).iStartBlock + (st.inodes f).iBlocks ≤ env.totalBlocks dev
  bytes : ∃ flat, st.Inv dev flat ∧ (st.inodes f).bytes flat = content

/-- A request that ends in the run of a file is on the device. -/
theorem inRange_of_onDevice {ip : FileInode}
    (hdevice : ip.iStartBlock + ip.iBlocks ≤ env.totalBlocks dev)
    (hfit : nbyte ≤ ip.iBlocks * blockSize) :
    env.inRange dev (ip.iStartBlock * blockSize) nbyte = nbyte := by
  simp only [Devices.inRange, blockSize] at hfit ⊢
  omega

theorem toSsize_of_lt (h : n < 2 ^ 63) : toSsize n = n :=
  Int.bmod_eq_of_le (by omega) (by omega)

theorem toCInt_of_lt (h : n < 2 ^ 31) : toCInt n = n :=
  Int.bmod_eq_of_le (by omega) (by omega)

/-! ## Reading -/

section

variable (h : RamFile env dev st f content)
include h

/-- What is read is the beginning of the contents. -/
theorem RamFile.contents_eq (hinv : st.Inv dev flat) (hbytes : (st.inodes f).bytes flat = content)
    (hn : nbyte ≠ 0) (hsmall : min nbyte content.length < 2 ^ 31) :
    (st.inodes f).contents env flat nbyte =
      (((min nbyte content.length : ℕ) : ℤ), content.take nbyte) := by
  have hsize := h.size
  have hbdev := hinv.bdev f h.lt
  unfold FileInode.contents
  by_cases hempty : (st.inodes f).iSize = 0
  · have hnil : content = [] := List.eq_nil_of_length_eq_zero (hsize ▸ hempty)
    rw [if_pos hempty, hnil]
    simp
  have hm : min nbyte (st.inodes f).iSize ≠ 0 := by omega
  have htake : ∀ b : Bytes, ∀ off, b.slice off (st.inodes f).iSize = content →
      b.slice off (min nbyte (st.inodes f).iSize) = content.take nbyte := by
    intro b off hb
    rw [← hb, Bytes.slice, Bytes.slice, ← List.map_take, List.take_range]
  unfold FileInode.bytes at hbytes
  split_ifs at hbytes ⊢ with hdisk
  · have hdev : dev ≠ 0 := hbdev ▸ hdisk.1
    have hrange : env.inRange (st.inodes f).iBdev ((st.inodes f).iStartBlock * blockSize)
        (min nbyte (st.inodes f).iSize) = min nbyte (st.inodes f).iSize := by
      rw [hbdev]
      exact inRange_of_onDevice (h.onDevice hdisk.2.ne')
        ((Nat.min_le_right _ _).trans (hinv.size hdev f h.lt))
    have hpos : ¬ ((min nbyte content.length : ℕ) : ℤ) < 0 := by omega
    simp only [hrange, htake _ _ hbytes]
    rw [hsize, toSsize_of_lt (by omega), toCInt_of_lt hsmall, if_neg hpos]
  · cases hpage : (st.inodes f).cachePage with
    | none =>
      rw [hpage] at hbytes
      rw [← hbytes] at hsize
      exact absurd hsize hempty
    | some page =>
      rw [hpage] at hbytes
      simp only [htake page 0 hbytes]
      rw [hsize]

/-- A read keeps the contents and returns their beginning. -/
theorem RamFile.ramfsRead_eq (henv : env.Reliable) (hn : nbyte ≠ 0)
    (hsmall : min nbyte content.length < 2 ^ 31) :
    ∃ s', ramfsRead env st f nbyte =
        ({ st with cache := s' }, ((min nbyte content.length : ℕ) : ℤ), content.take nbyte) ∧
      RamFile env dev { st with cache := s' } f content := by
  obtain ⟨flat, hinv, hbytes⟩ := h.bytes
  obtain ⟨s', hrep, hread⟩ := hinv.read henv h.lt nbyte
  rw [h.contents_eq hinv hbytes hn hsmall] at hread
  exact ⟨s', hread, h.lt, h.size, h.onDevice, flat,
    ⟨hrep, hinv.bdev, hinv.below, hinv.apart, hinv.size⟩, hbytes⟩

/-! ## Writing -/

/-- There is room for a write: blocks of the device, or the page of a file without a device. -/
def WriteFits (env : Devices) (st : RamFiles) (f nbyte : ℕ) (frames : Bool) : Prop :=
  nbyte < 2 ^ 32 ∧
    if (st.inodes f).iBdev ≠ 0 then
      ∃ st' ∈ prepareWrite env st f nbyte, nbyte ≤ (st'.inodes f).iBlocks * blockSize ∧
        ((st'.inodes f).iStartBlock + (st'.inodes f).iBlocks) * blockSize ≤ 2 ^ 64
    else nbyte ≤ blockSize ∧ ((st.inodes f).cachePage.isSome ∨ frames = true)

instance (env : Devices) (st : RamFiles) (f nbyte : ℕ) (frames : Bool) :
    Decidable (WriteFits env st f nbyte frames) := by
  unfold WriteFits
  infer_instance

/-- The blocks of a file that gets them are on the device. -/
theorem RamFile.prepareWrite_onDevice (hprep : prepareWrite env st f nbyte = some st')
    (hinv : st.Inv dev flat)
    (hend : ((st'.inodes f).iStartBlock + (st'.inodes f).iBlocks) * blockSize ≤ 2 ^ 64) :
    (st'.inodes f).iStartBlock + (st'.inodes f).iBlocks ≤ env.totalBlocks dev := by
  unfold prepareWrite at hprep
  split_ifs at hprep with hzero
  · simp only [vfsAllocBlocks, hinv.bdev f h.lt] at hprep
    split_ifs at hprep with hfull
    cases hprep
    simp only [RamFiles.setInode, update_self, blockSize] at hend ⊢
    omega
  · cases hprep
    exact h.onDevice hzero

/-- A write replaces the contents. -/
theorem RamFile.ramfsWrite_spec (henv : env.Reliable) (hn : nbyte ≠ 0) {frames : Bool}
    (hfits : WriteFits env st f nbyte frames) (buf : Bytes) :
    RamFile env dev (ramfsWrite env st f buf nbyte frames).1 f (buf.slice 0 nbyte) := by
  obtain ⟨flat, hinv, -⟩ := h.bytes
  obtain ⟨hlt, hroom⟩ := hfits
  have hsize : nbyte % 2 ^ 32 = nbyte := Nat.mod_eq_of_lt hlt
  have hbdev := hinv.bdev f h.lt
  unfold ramfsWrite
  rw [if_neg hn]
  by_cases hdev : (st.inodes f).iBdev ≠ 0
  · rw [if_pos hdev] at hroom ⊢
    obtain ⟨st₁, hprep, hfit, hend⟩ := hroom
    rw [Option.mem_def] at hprep
    obtain ⟨h₁, hcount, -, -⟩ := hinv.prepare h.lt hprep hend
    have hdev0 : dev ≠ 0 := hbdev ▸ hdev
    have hlt₁ : f < st₁.count := hcount ▸ h.lt
    have hdevice := h.prepareWrite_onDevice hprep hinv hend
    obtain ⟨s', hwrite, hrep⟩ := h₁.blockWrite henv hlt₁ hdev0 hn hfit hend buf
    rw [inRange_of_onDevice hdevice hfit] at hwrite hrep
    simp only [hprep, hwrite, toSsize_of_lt (show nbyte < 2 ^ 63 by omega)]
    rw [if_neg (by omega), hsize]
    refine ⟨hlt₁, by simp [RamFiles.setInode], fun _ => ?_, _,
      h₁.setSize hrep hlt₁ _ fun _ => hfit, ?_⟩
    · simpa [RamFiles.setInode] using hdevice
    · have hblocks : 0 < (st₁.inodes f).iBlocks := Nat.pos_of_ne_zero fun h0 => by
        rw [h0, Nat.zero_mul] at hfit
        omega
      have hbdev₁ := h₁.bdev f hlt₁
      simp only [RamFiles.setInode, update_self, FileInode.bytes]
      rw [if_pos ⟨hbdev₁ ▸ hdev0, hblocks⟩, hbdev₁, update_self]
      generalize (st₁.inodes f).iStartBlock * blockSize = off
      refine Bytes.slice_congr fun k hk => ?_
      rw [Bytes.copyIn_of_mem (by omega) (by omega), Nat.add_sub_cancel_left]
  · rw [if_neg hdev] at hroom ⊢
    obtain ⟨hpage, hframes⟩ := hroom
    have hdev0 : ¬ dev ≠ 0 := by rwa [← hbdev]
    have hmin : min nbyte blockSize = nbyte := by omega
    dsimp only
    split
    · next hnone =>
      rw [hnone] at hframes
      simp at hframes
    · rw [hmin, hsize]
      refine ⟨h.lt, by simp [RamFiles.setInode], fun hblocks => ?_, flat,
        hinv.setSize hinv.rep h.lt _ fun hne => absurd hne hdev0, ?_⟩
      · simp only [RamFiles.setInode, update_self] at hblocks ⊢
        exact h.onDevice hblocks
      · simp only [RamFiles.setInode, update_self, FileInode.bytes]
        rw [if_neg fun hdisk => hdev hdisk.1]
        refine Bytes.slice_congr fun k hk => ?_
        rw [Bytes.copyIn_of_mem (by omega) (by omega), Nat.zero_add, Nat.sub_zero]

end

end Tomahawk.Ramfs
