import Tomahawk.Block.Refinement

/-!
# File contents on ramfs

A ramfs file keeps its bytes in one run of blocks of the backing device. The run is
taken from a bump allocator at the first write and never grows, but later writes copy
their bytes to it whatever their length. So a write leaves the other files alone as long
as it fits in its run, which is `RamFiles.Meets`.
-/

namespace Tomahawk.Ramfs

open Function Tomahawk.Lib Tomahawk.Block

/-- The conversion of a 64-bit result to `ssize_t`. -/
def toSsize (n : ℤ) : ℤ := n.bmod (2 ^ 64)

/-- The conversion of a result to `int`. -/
def toCInt (n : ℤ) : ℤ := n.bmod (2 ^ 32)

/-- The fields of `struct inode` that reading and writing use. The legacy page cache is
the one page that a file without a device can have. -/
structure FileInode where
  iSize : ℕ
  iStartBlock : ℕ
  iBlocks : ℕ
  iBdev : DevPtr
  cachePage : Option Bytes

/-- The block layer, the bump counter and the inodes of the files created so far. -/
structure RamFiles where
  cache : Cache
  nextFreeBlock : ℕ
  inodes : ℕ → FileInode
  count : ℕ

/-- Replace one inode. -/
def RamFiles.setInode (st : RamFiles) (f : ℕ) (ip : FileInode) : RamFiles :=
  { st with inodes := update st.inodes f ip }

/-- The inode that `vfs_create_vnode_on_device` sets up. -/
def newInode (dev : DevPtr) : FileInode := ⟨0, 0, 0, dev, none⟩

/-- Creating a file: the next inode, on the backing device. -/
def createFile (st : RamFiles) (dev : DevPtr) : RamFiles :=
  { st.setInode st.count (newInode dev) with count := st.count + 1 }

/-- `vfs_alloc_blocks`: the next run of blocks, when the device has enough. The sum is a
64-bit one. -/
def vfsAllocBlocks (env : Devices) (st : RamFiles) (f : ℕ) (numBlocks : ℕ) : Option RamFiles :=
  let ip := st.inodes f
  let next := (st.nextFreeBlock + numBlocks) % 2 ^ 64
  if env.totalBlocks ip.iBdev < next then none
  else
    some { st.setInode f { ip with iStartBlock := st.nextFreeBlock, iBlocks := numBlocks } with
      nextFreeBlock := next }

/-- The blocks that a first write asks for. The rounding up is a 64-bit sum. -/
def blocksNeeded (nbyte : ℕ) : ℕ :=
  let n := (nbyte + blockSize - 1) % 2 ^ 64 / blockSize
  if n = 0 then 1 else n

/-- The inode that a write goes to, with blocks assigned if it had none; `none` when the
device is full. -/
def prepareWrite (env : Devices) (st : RamFiles) (f : ℕ) (nbyte : ℕ) : Option RamFiles :=
  if (st.inodes f).iBlocks = 0 then vfsAllocBlocks env st f (blocksNeeded nbyte) else some st

/-- `ramfs_write` of `nbyte` bytes of `buf`. The flag says whether the page cache gets its
frames, which only a file without a device asks for. -/
def ramfsWrite (env : Devices) (st : RamFiles) (f : ℕ) (buf : Bytes) (nbyte : ℕ) (frames : Bool) :
    RamFiles × ℤ :=
  if nbyte = 0 then (st, -1)
  else if (st.inodes f).iBdev ≠ 0 then
    match prepareWrite env st f nbyte with
    | none => (st, -1)
    | some st =>
      let ip := st.inodes f
      let r := blockWrite env st.cache ip.iBdev (ip.iStartBlock * blockSize % 2 ^ 64) buf nbyte
      let st := { st with cache := r.1 }
      if toSsize r.2 < 0 then (st, -1)
      else (st.setInode f { ip with iSize := nbyte % 2 ^ 32 }, toCInt (toSsize r.2))
  else
    let ip := st.inodes f
    match ip.cachePage, frames with
    | none, false => (st, -1)
    | page, _ =>
      let toWrite := min nbyte blockSize
      let page := (page.getD fun _ => 0).copyIn 0 toWrite buf 0
      (st.setInode f { ip with cachePage := some page, iSize := toWrite % 2 ^ 32 }, toWrite)

/-- `ramfs_read`: the result and the bytes stored for the caller. -/
def ramfsRead (env : Devices) (st : RamFiles) (f : ℕ) (nbyte : ℕ) : RamFiles × ℤ × List UInt8 :=
  let ip := st.inodes f
  if ip.iSize = 0 then (st, 0, [])
  else
    let toRead := min nbyte ip.iSize
    if ip.iBdev ≠ 0 ∧ 0 < ip.iBlocks then
      let r := blockRead env st.cache ip.iBdev (ip.iStartBlock * blockSize % 2 ^ 64) toRead
      ({ st with cache := r.1 }, if toSsize r.2.1 < 0 then -1 else toCInt (toSsize r.2.1), r.2.2)
    else
      match ip.cachePage with
      | none => (st, 0, [])
      | some page => (st, toRead, page.slice 0 toRead)

variable {nbyte : ℕ}

/-- A read copies no more than it was asked for, and no more than the file has. -/
theorem length_ramfsRead {env : Devices} {st : RamFiles} {f : ℕ} :
    (ramfsRead env st f nbyte).2.2.length ≤ min nbyte (st.inodes f).iSize := by
  unfold ramfsRead
  by_cases hempty : (st.inodes f).iSize = 0
  · rw [if_pos hempty]
    exact Nat.zero_le _
  rw [if_neg hempty]
  by_cases hdev : (st.inodes f).iBdev ≠ 0 ∧ 0 < (st.inodes f).iBlocks
  · rw [if_pos hdev]
    exact length_blockRead
  rw [if_neg hdev]
  cases (st.inodes f).cachePage with
  | none => exact Nat.zero_le _
  | some page => simp

/-- The operations on file contents. -/
inductive FileOp where
  | create
  | write (f : ℕ) (buf : Bytes) (nbyte : ℕ) (frames : Bool)
  | read (f : ℕ) (nbyte : ℕ)

/-- One operation, with `dev` as the backing device. -/
def RamFiles.step (env : Devices) (dev : DevPtr) (st : RamFiles) : FileOp → RamFiles
  | .create => createFile st dev
  | .write f buf nbyte frames => if f < st.count then (ramfsWrite env st f buf nbyte frames).1 else st
  | .read f nbyte => if f < st.count then (ramfsRead env st f nbyte).1 else st

/-- The condition on a write that has blocks or gets them: it fits in them, and they end
within the 64-bit byte offsets of the device. -/
def RamFiles.Meets (env : Devices) (st : RamFiles) : FileOp → Prop
  | .write f _ nbyte _ => f < st.count → nbyte ≠ 0 → (st.inodes f).iBdev ≠ 0 →
    ∀ st' ∈ prepareWrite env st f nbyte,
      nbyte ≤ (st'.inodes f).iBlocks * blockSize ∧
        ((st'.inodes f).iStartBlock + (st'.inodes f).iBlocks) * blockSize ≤ 2 ^ 64
  | _ => True

instance (env : Devices) (st : RamFiles) : DecidablePred (RamFiles.Meets env st) := by
  intro op
  cases op <;> unfold RamFiles.Meets <;> infer_instance

/-- The state after `buffer_cache_init` and `vfs_init`. Block 0 is kept for a superblock. -/
def vfsInit (data : BufPtr → Bytes) (disk : DevPtr → ℕ → Bytes) : RamFiles where
  cache := bufferCacheInit data disk
  nextFreeBlock := 1
  inodes := fun _ => newInode 0
  count := 0

/-- The bytes `[start, stop)` of the device that a file owns. -/
def FileInode.Owns (ip : FileInode) (offset : ℕ) : Prop :=
  ip.iStartBlock * blockSize ≤ offset ∧ offset < (ip.iStartBlock + ip.iBlocks) * blockSize

/-- The block layer represents `flat`, and the runs of the files are below the bump
counter, apart from each other and long enough for the file sizes. -/
structure RamFiles.Inv (dev : DevPtr) (st : RamFiles) (flat : Flat) : Prop where
  rep : Represents st.cache flat
  bdev : ∀ f < st.count, (st.inodes f).iBdev = dev
  below : ∀ f < st.count, (st.inodes f).iBlocks ≠ 0 →
    (st.inodes f).iStartBlock + (st.inodes f).iBlocks ≤ st.nextFreeBlock ∧
      ((st.inodes f).iStartBlock + (st.inodes f).iBlocks) * blockSize ≤ 2 ^ 64
  apart : ∀ f < st.count, ∀ g < st.count, f ≠ g → ∀ offset, (st.inodes f).Owns offset →
    ¬ (st.inodes g).Owns offset
  size : dev ≠ 0 → ∀ f < st.count,
    (st.inodes f).iSize ≤ (st.inodes f).iBlocks * blockSize

variable {env : Devices} {dev : DevPtr} {st st' : RamFiles} {flat flat' : Flat} {f g : ℕ}
  {ip : FileInode}

/-- A file without blocks owns nothing. -/
theorem FileInode.not_owns (h : ip.iBlocks = 0) (offset : ℕ) :
    ¬ ip.Owns offset := by
  simp only [FileInode.Owns, h, Nat.add_zero]
  omega

/-- A file gets another inode, or a new file its first one, on a run apart from the others. -/
theorem RamFiles.Inv.put (h : st.Inv dev flat) {s : Cache} (hs : Represents s flat')
    {next count : ℕ} (hnext : st.nextFreeBlock ≤ next)
    (hcount : ∀ g < count, g ≠ f → g < st.count) (hbdev : ip.iBdev = dev)
    (hbelow : ip.iBlocks ≠ 0 → ip.iStartBlock + ip.iBlocks ≤ next ∧
      (ip.iStartBlock + ip.iBlocks) * blockSize ≤ 2 ^ 64)
    (hapart : ∀ g < st.count, g ≠ f → ∀ offset, ip.Owns offset → ¬ (st.inodes g).Owns offset)
    (hsize : dev ≠ 0 → ip.iSize ≤ ip.iBlocks * blockSize) :
    RamFiles.Inv dev ⟨s, next, update st.inodes f ip, count⟩ flat' := by
  refine ⟨hs, fun g hg => ?_, fun g hg => ?_, fun a ha b hb hab offset => ?_,
    fun hdev g hg => ?_⟩ <;> dsimp only
  · by_cases hgf : g = f
    · rw [hgf, update_self, hbdev]
    · rw [update_of_ne hgf, h.bdev g (hcount g hg hgf)]
  · by_cases hgf : g = f
    · rw [hgf, update_self]
      exact hbelow
    · rw [update_of_ne hgf]
      exact fun hblocks => (h.below g (hcount g hg hgf) hblocks).imp_left hnext.trans'
  · by_cases haf : a = f
    · have hbf : b ≠ f := haf ▸ hab.symm
      rw [haf, update_self, update_of_ne hbf]
      exact hapart b (hcount b hb hbf) hbf offset
    rw [update_of_ne haf]
    by_cases hbf : b = f
    · rw [hbf, update_self]
      exact fun hoa hob => hapart a (hcount a ha haf) haf offset hob hoa
    · rw [update_of_ne hbf]
      exact h.apart a (hcount a ha haf) b (hcount b hb hbf) hab offset
  · by_cases hgf : g = f
    · rw [hgf, update_self]
      exact hsize hdev
    · rw [update_of_ne hgf]
      exact h.size hdev g (hcount g hg hgf)

/-- Getting blocks for a write keeps the invariant and the other inodes. -/
theorem RamFiles.Inv.prepare (h : st.Inv dev flat) (hf : f < st.count)
    (hprep : prepareWrite env st f nbyte = some st')
    (hend : ((st'.inodes f).iStartBlock + (st'.inodes f).iBlocks) * blockSize ≤ 2 ^ 64) :
    st'.Inv dev flat ∧ st'.count = st.count ∧ st'.cache = st.cache ∧
      ∀ g ≠ f, st'.inodes g = st.inodes g := by
  unfold prepareWrite at hprep
  split_ifs at hprep with hzero
  · simp only [vfsAllocBlocks] at hprep
    split_ifs at hprep with hfull
    cases hprep
    simp only [RamFiles.setInode, update_self] at hend
    -- The run ends within 64-bit offsets, so the bump counter does not wrap.
    have hnext : (st.nextFreeBlock + blocksNeeded nbyte) % 2 ^ 64 =
        st.nextFreeBlock + blocksNeeded nbyte :=
      Nat.mod_eq_of_lt (by simp only [blockSize] at hend; omega)
    refine ⟨?_, rfl, rfl, fun g hg => update_of_ne hg _ _⟩
    rw [hnext]
    refine h.put h.rep (Nat.le_add_right _ _) (fun g hg _ => hg) (h.bdev f hf)
      (fun _ => ⟨le_rfl, hend⟩) (fun g hg _ offset hoa hob => ?_) fun hdev => ?_
    · have hblocks : (st.inodes g).iBlocks ≠ 0 := fun h0 => FileInode.not_owns h0 offset hob
      have := (h.below g hg hblocks).1
      simp only [FileInode.Owns, blockSize] at hoa hob
      omega
    · have hsize := h.size hdev f hf
      rw [hzero, Nat.zero_mul] at hsize
      exact le_trans hsize (Nat.zero_le _)
  · cases hprep
    exact ⟨h, rfl, rfl, fun _ _ => rfl⟩

/-- A byte written from the start of the run of a file is in the run if the write fits. -/
theorem FileInode.owns_of_fits {n offset : ℕ} (hfit : n ≤ ip.iBlocks * blockSize)
    (hlow : ip.iStartBlock * blockSize ≤ offset) (hhigh : offset < ip.iStartBlock * blockSize + n) :
    ip.Owns offset := by
  refine ⟨hlow, lt_of_lt_of_le hhigh ?_⟩
  rw [Nat.add_mul]
  exact Nat.add_le_add_left hfit _

/-- The cache, and the size and the page of one inode, can change under the invariant. -/
theorem RamFiles.Inv.setSize (h : st.Inv dev flat) {s : Cache} (hs : Represents s flat')
    (hf : f < st.count) {size : ℕ} (page : Option Bytes)
    (hsize : dev ≠ 0 → size ≤ (st.inodes f).iBlocks * blockSize) :
    ({ st with cache := s }.setInode f { st.inodes f with iSize := size, cachePage := page }).Inv
      dev flat' :=
  h.put hs le_rfl (fun _ hg _ => hg) (h.bdev f hf) (h.below f hf)
    (fun g hg hgf => h.apart f hf g hg hgf.symm) hsize

/-- The copy of a write that fits, on the device. -/
theorem RamFiles.Inv.blockWrite (h : st.Inv dev flat) (henv : env.Reliable) (hf : f < st.count)
    (hdev : dev ≠ 0) (hzero : nbyte ≠ 0) (hfit : nbyte ≤ (st.inodes f).iBlocks * blockSize)
    (hend : ((st.inodes f).iStartBlock + (st.inodes f).iBlocks) * blockSize ≤ 2 ^ 64)
    (buf : Bytes) :
    ∃ s', Block.blockWrite env st.cache (st.inodes f).iBdev
        ((st.inodes f).iStartBlock * blockSize % 2 ^ 64) buf nbyte =
        (s', ((env.inRange dev ((st.inodes f).iStartBlock * blockSize) nbyte : ℕ) : ℤ)) ∧
      Represents s' (update flat dev ((flat dev).copyIn
        ((st.inodes f).iStartBlock * blockSize)
        (env.inRange dev ((st.inodes f).iStartBlock * blockSize) nbyte) buf 0)) := by
  obtain ⟨L, hrep⟩ := h.rep
  have hoff : (st.inodes f).iStartBlock * blockSize % 2 ^ 64 =
      (st.inodes f).iStartBlock * blockSize := by
    apply Nat.mod_eq_of_lt
    simp only [blockSize] at hfit hend ⊢
    omega
  obtain ⟨s', L', hwrite, hrep'⟩ := hrep.blockWrite henv hdev
    ((st.inodes f).iStartBlock * blockSize) buf hzero
  rw [hoff, h.bdev f hf]
  exact ⟨s', hwrite, L', hrep'⟩

/-- A write that fits changes the array only in the run of its file, and no other inode. -/
theorem RamFiles.Inv.write (h : st.Inv dev flat) (henv : env.Reliable) (hf : f < st.count)
    {buf : Bytes} {frames : Bool} (hmeet : RamFiles.Meets env st (.write f buf nbyte frames)) :
    ∃ flat', (ramfsWrite env st f buf nbyte frames).1.Inv dev flat' ∧
      (ramfsWrite env st f buf nbyte frames).1.count = st.count ∧
      (∀ g ≠ f, (ramfsWrite env st f buf nbyte frames).1.inodes g = st.inodes g) ∧
      ∀ g < st.count, g ≠ f → ∀ offset, (st.inodes g).Owns offset →
        flat' dev offset = flat dev offset := by
  unfold ramfsWrite
  by_cases hzero : nbyte = 0
  · rw [if_pos hzero]
    exact ⟨flat, h, rfl, fun _ _ => rfl, fun _ _ _ _ _ => rfl⟩
  rw [if_neg hzero]
  by_cases hbdev : (st.inodes f).iBdev ≠ 0
  · rw [if_pos hbdev]
    cases hprep : prepareWrite env st f nbyte with
    | none => exact ⟨flat, h, rfl, fun _ _ => rfl, fun _ _ _ _ _ => rfl⟩
    | some st₁ =>
      obtain ⟨hfit, hend⟩ := hmeet hf hzero hbdev st₁ hprep
      obtain ⟨h₁, hcount, -, hothers⟩ := h.prepare hf hprep hend
      have hdev0 : dev ≠ 0 := by
        rw [← h.bdev f hf]
        exact hbdev
      obtain ⟨s', hwrite, hrep'⟩ := h₁.blockWrite henv (by rwa [hcount]) hdev0 hzero hfit hend buf
      set n := env.inRange dev ((st₁.inodes f).iStartBlock * blockSize) nbyte with hn
      have hn_le : n ≤ nbyte := Nat.min_le_left _ _
      simp only [hwrite]
      -- The bytes written lie in the run of the file.
      have hkeep : ∀ g < st.count, g ≠ f → ∀ offset, (st.inodes g).Owns offset →
          update flat dev ((flat dev).copyIn ((st₁.inodes f).iStartBlock * blockSize) n
            buf 0) dev offset = flat dev offset := by
        intro g hg hgf offset howns
        rw [← hothers g hgf] at howns
        have hnot := h₁.apart g (by rwa [hcount]) f (by rwa [hcount]) hgf offset howns
        rw [update_self]
        by_cases hlow : offset < (st₁.inodes f).iStartBlock * blockSize
        · exact Bytes.copyIn_of_lt hlow
        · refine Bytes.copyIn_of_le (not_lt.mp fun hhigh => hnot ?_)
          exact FileInode.owns_of_fits (le_trans hn_le hfit) (not_lt.mp hlow) hhigh
      split_ifs with hneg
      · refine ⟨_, ?_, hcount, hothers, hkeep⟩
        exact ⟨hrep', h₁.bdev, h₁.below, h₁.apart, h₁.size⟩
      · refine ⟨_, h₁.setSize hrep' (by rwa [hcount]) _ fun _ => le_trans (Nat.mod_le _ _) hfit, hcount,
          fun g hg => ?_, hkeep⟩
        rw [← hothers g hg]
        exact update_of_ne hg _ _
  · rw [if_neg hbdev]
    have hdev0 : ¬ dev ≠ 0 := by rwa [← h.bdev f hf]
    dsimp only
    split
    · exact ⟨flat, h, rfl, fun _ _ => rfl, fun _ _ _ _ _ => rfl⟩
    · refine ⟨flat, h.setSize h.rep hf _ fun hne => absurd hne hdev0, rfl, fun g hg => ?_,
        fun _ _ _ _ _ => rfl⟩
      exact update_of_ne hg _ _

/-- What reading a file returns when the device is the array `flat`. -/
def FileInode.contents (env : Devices) (ip : FileInode) (flat : Flat) (nbyte : ℕ) :
    ℤ × List UInt8 :=
  if ip.iSize = 0 then (0, [])
  else if ip.iBdev ≠ 0 ∧ 0 < ip.iBlocks then
    if min nbyte ip.iSize = 0 then (-1, [])
    else
      let n := env.inRange ip.iBdev (ip.iStartBlock * blockSize) (min nbyte ip.iSize)
      (if toSsize n < 0 then -1 else toCInt (toSsize n),
        (flat ip.iBdev).slice (ip.iStartBlock * blockSize) n)
  else
    match ip.cachePage with
    | none => (0, [])
    | some page => ((min nbyte ip.iSize : ℕ), page.slice 0 (min nbyte ip.iSize))

/-- Reading returns the contents and keeps the array. -/
theorem RamFiles.Inv.read (h : st.Inv dev flat) (henv : env.Reliable) (hf : f < st.count)
    (nbyte : ℕ) : ∃ s', Represents s' flat ∧
      ramfsRead env st f nbyte =
        ({ st with cache := s' }, (st.inodes f).contents env flat nbyte) := by
  unfold ramfsRead FileInode.contents
  by_cases hempty : (st.inodes f).iSize = 0
  · simp only [if_pos hempty]
    exact ⟨_, h.rep, rfl⟩
  simp only [if_neg hempty]
  by_cases hdisk : (st.inodes f).iBdev ≠ 0 ∧ 0 < (st.inodes f).iBlocks
  · simp only [if_pos hdisk]
    by_cases hzero : min nbyte (st.inodes f).iSize = 0
    · refine ⟨_, h.rep, ?_⟩
      simp only [blockRead, hzero, or_true, if_true]
      simp [toSsize]
    obtain ⟨L, hrep⟩ := h.rep
    obtain ⟨s', L', hread, hrep'⟩ := hrep.blockRead henv hdisk.1
      ((st.inodes f).iStartBlock * blockSize) hzero
    have hoff : (st.inodes f).iStartBlock * blockSize % 2 ^ 64 =
        (st.inodes f).iStartBlock * blockSize := by
      have hend := (h.below f hf hdisk.2.ne').2
      apply Nat.mod_eq_of_lt
      simp only [blockSize] at hend ⊢
      omega
    refine ⟨s', ⟨L', hrep'⟩, ?_⟩
    simp only [hoff, hread, if_neg hzero]
  · simp only [if_neg hdisk]
    split
    · exact ⟨_, h.rep, rfl⟩
    · exact ⟨_, h.rep, rfl⟩

/-- The contents of a file depend on the array only in the run of the file. -/
theorem FileInode.contents_congr (hsize : ip.iBdev ≠ 0 → ip.iSize ≤ ip.iBlocks * blockSize)
    (hflat : ∀ offset, ip.Owns offset → flat' ip.iBdev offset = flat ip.iBdev offset) (nbyte : ℕ) :
    ip.contents env flat' nbyte = ip.contents env flat nbyte := by
  unfold contents
  split_ifs with hempty hdisk hzero
  · rfl
  · rfl
  · refine Prod.ext rfl (Bytes.slice_congr fun k hk => hflat _ ?_)
    refine owns_of_fits (hsize hdisk.1) (Nat.le_add_right _ _) ?_
    refine Nat.add_lt_add_left (lt_of_lt_of_le hk ?_) _
    exact le_trans (Nat.min_le_left _ _) (Nat.min_le_right _ _)
  · rfl

/-- A new file has no blocks. -/
theorem RamFiles.Inv.create (h : st.Inv dev flat) : (createFile st dev).Inv dev flat :=
  h.put h.rep le_rfl (fun g hg hne => by omega) rfl (fun hne => absurd rfl hne)
    (fun _ _ _ offset howns => absurd howns (FileInode.not_owns rfl offset)) fun _ => Nat.zero_le _

/-- One operation that meets the condition keeps the invariant. -/
theorem RamFiles.Inv.step (henv : env.Reliable) (op : FileOp) (h : ∃ flat, st.Inv dev flat)
    (hmeet : RamFiles.Meets env st op) : ∃ flat, (RamFiles.step env dev st op).Inv dev flat := by
  obtain ⟨flat, h⟩ := h
  cases op with
  | create => exact ⟨flat, h.create⟩
  | write f buf nbyte frames =>
    simp only [RamFiles.step]
    split_ifs with hf
    · obtain ⟨flat', h', -⟩ := h.write henv hf hmeet
      exact ⟨flat', h'⟩
    · exact ⟨flat, h⟩
  | read f nbyte =>
    simp only [RamFiles.step]
    split_ifs with hf
    · obtain ⟨s', hrep, hread⟩ := h.read henv hf nbyte
      rw [hread]
      exact ⟨flat, hrep, h.bdev, h.below, h.apart, h.size⟩
    · exact ⟨flat, h⟩

/-- The invariant holds before the first file is created. -/
theorem RamFiles.inv_vfsInit (dev : DevPtr) (data : BufPtr → Bytes) (disk : DevPtr → ℕ → Bytes) :
    (vfsInit data disk).Inv dev (flatOf disk) where
  rep := ⟨_, rep_bufferCacheInit data disk⟩
  bdev := fun _ hf => absurd hf (Nat.not_lt_zero _)
  below := fun _ hf => absurd hf (Nat.not_lt_zero _)
  apart := fun _ hf => absurd hf (Nat.not_lt_zero _)
  size := fun _ _ hf => absurd hf (Nat.not_lt_zero _)

/-- In every run whose writes fit in the blocks of their files, a write to one file leaves
what reading any other file returns. -/
theorem ramfs_write_isolated (env : Devices) (henv : env.Reliable) (dev : DevPtr)
    (data : BufPtr → Bytes) (disk : DevPtr → ℕ → Bytes) (ops : List FileOp) (f : ℕ) (buf : Bytes)
    (nbyte : ℕ) (frames : Bool)
    (hmeets : Guarded (RamFiles.step env dev) (RamFiles.Meets env) (vfsInit data disk)
      (ops ++ [.write f buf nbyte frames]))
    (g : ℕ) (hg : g < (run (RamFiles.step env dev) (vfsInit data disk) ops).count) (hgf : g ≠ f)
    (n : ℕ) :
    (ramfsRead env (run (RamFiles.step env dev) (vfsInit data disk)
        (ops ++ [.write f buf nbyte frames])) g n).2 =
      (ramfsRead env (run (RamFiles.step env dev) (vfsInit data disk) ops) g n).2 := by
  obtain ⟨hops, hmeet, -⟩ := guarded_append.mp hmeets
  obtain ⟨flat, h⟩ := run_invariant (I := fun st => ∃ flat, st.Inv dev flat)
    (fun _ op hst hop => RamFiles.Inv.step henv op hst hop)
    ⟨_, RamFiles.inv_vfsInit dev data disk⟩ hops
  rw [run_append]
  set st := run (RamFiles.step env dev) (vfsInit data disk) ops
  simp only [run, List.foldl_cons, List.foldl_nil, RamFiles.step]
  split_ifs with hf
  · obtain ⟨flat', h', hcount, hothers, hkeep⟩ := h.write henv hf hmeet
    obtain ⟨s, -, hbefore⟩ := h.read henv hg n
    obtain ⟨s', -, hafter⟩ := h'.read henv (hcount.symm ▸ hg) n
    rw [hbefore, hafter, hothers g hgf]
    refine FileInode.contents_congr ?_ ?_ n
    · rw [h.bdev g hg]
      exact fun hdev => h.size hdev g hg
    · rw [h.bdev g hg]
      exact hkeep g hg hgf
  · rfl

/-- A device of ten blocks. -/
def tenBlocks : Devices where
  totalBlocks := fun _ => 10
  fault := fun _ => false

/-- Two files of one byte each. -/
def twoFiles : List FileOp :=
  [.create, .create, .write 0 (fun _ => 1) 1 true, .write 1 (fun _ => 2) 1 true]

/-- A rewrite of the first file with a whole block leaves the byte of the second. -/
theorem ramfs_write_isolated_block :
    (ramfsRead tenBlocks (run (RamFiles.step tenBlocks 1) (vfsInit (fun _ _ => 0) fun _ _ _ => 0)
      (twoFiles ++ [.write 0 (fun _ => 3) 4096 true])) 1 1).2 = (1, [2]) := by
  rw [ramfs_write_isolated tenBlocks (fun _ => rfl) 1 _ _ twoFiles 0 _ 4096 true
    (by decide) 1 (by decide) (by decide) 1]
  decide

/-- A rewrite of the first file with one byte more than its block changes the byte of the
second. -/
theorem ramfs_write_overruns :
    (ramfsRead tenBlocks (run (RamFiles.step tenBlocks 1) (vfsInit (fun _ _ => 0) fun _ _ _ => 0)
        twoFiles) 1 1).2 = (1, [2]) ∧
      (ramfsWrite tenBlocks (run (RamFiles.step tenBlocks 1)
        (vfsInit (fun _ _ => 0) fun _ _ _ => 0) twoFiles) 0 (fun _ => 3) 4097 true).2 = 4097 ∧
      (ramfsRead tenBlocks (run (RamFiles.step tenBlocks 1) (vfsInit (fun _ _ => 0) fun _ _ _ => 0)
        (twoFiles ++ [.write 0 (fun _ => 3) 4097 true])) 1 1).2 = (1, [3]) := by
  decide

end Tomahawk.Ramfs
