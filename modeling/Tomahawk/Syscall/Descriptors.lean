import Tomahawk.Fat32.Coherence
import Tomahawk.Lib.Chunks
import Tomahawk.Proc.Files
import Tomahawk.Ramfs.Content
import Tomahawk.Syscall.UserAccess

/-!
# Reading and writing through a descriptor

`SYS_READ` and `SYS_WRITE_FD` keep an offset in the `struct file` of a descriptor. They pass it
to `vop_read_at` and `vop_write_at` if the vnode has them, as those of FAT32 do, and otherwise
call `vop_read` and `vop_write`, which are all that ramfs has and which begin at the start of the
file. So the offset counts what was transferred, but only on FAT32 does it say where the next
transfer begins.
-/

namespace Tomahawk.Syscall

open Tomahawk.Lib Tomahawk.Block Tomahawk.Fat32 Tomahawk.Proc

/-- A vnode: a file of ramfs, or the data of a FAT32 vnode. -/
inductive Node where
  | ramfs (f : ℕ)
  | fat32 (vp : Vnode)

/-- The two file systems and the `struct file` of a descriptor. -/
structure Io where
  ram : Ramfs.RamFiles
  volume : Volume
  file : File Node

/-- The buffer and the length that a call passes, the bytes in the buffer, and the free frames. -/
structure IoCall where
  buf : BitVec 64
  len : BitVec 64
  bytes : Bytes
  frames : ℕ

/-- The bytes that a write passes. -/
def IoCall.data (c : IoCall) : List UInt8 := c.bytes.slice 0 c.len.toNat

/-- The entries for reading and writing of `struct vnode_operations`, for one vnode. A write
that does not return has no result. -/
structure VnodeOps where
  vopRead : Option (Io → IoCall → Io × ℤ × List UInt8)
  vopWrite : Option (Io → IoCall → Io × Option ℤ)
  vopReadAt : Option (Io → IoCall → ℕ → Io × ℤ × List UInt8)
  vopWriteAt : Option (Io → IoCall → ℕ → Io × Option ℤ)

/-- The field `v_op`: `ramfs_ops` or `fat32_vnode_ops`. -/
def vOp (env : Devices) : Node → VnodeOps
  | .ramfs f =>
    { vopRead := some fun s c =>
        let r := Ramfs.ramfsRead env s.ram f c.len.toNat
        ({ s with ram := r.1 }, r.2)
      vopWrite := some fun s c =>
        let r := Ramfs.ramfsWrite env s.ram f c.bytes c.len.toNat (decide (2 ≤ c.frames))
        ({ s with ram := r.1 }, some r.2)
      vopReadAt := none
      vopWriteAt := none }
  | .fat32 vp =>
    { vopRead := none
      vopWrite := none
      vopReadAt := some fun s c offset =>
        (s, vopReadAt c.frames s.volume vp c.len.toNat offset)
      vopWriteAt := some fun s c offset =>
        match vopWriteAt c.frames s.volume vp c.bytes c.len.toNat offset with
        | none => (s, none)
        | some (v, vp, n) =>
          ({ s with volume := v, file := { s.file with vnode := some (.fat32 vp) } }, some n) }

/-- `if (n > 0) f->f_offset += n`, on the 32-bit offset. -/
def Io.advance (s : Io) (n : ℤ) : Io :=
  if 0 < n then { s with file := { s.file with offset := (s.file.offset + n.toNat) % 2 ^ 32 } }
  else s

/-- `SYS_READ` on a descriptor: the result, and the bytes that were stored for the caller. -/
def sysRead (env : Devices) (s : Io) (c : IoCall) : Io × ℤ × List UInt8 :=
  if s.file.flags &&& 3 = 1 then (s, -9, [])
  else
    match s.file.vnode with
    | none => (s, -9, [])
    | some vp =>
      if validateUserBuf c.buf c.len ≠ 0 then (s, -14, [])
      else
        match (vOp env vp).vopReadAt, (vOp env vp).vopRead with
        | some readAt, _ =>
          let r := readAt s c s.file.offset
          (r.1.advance r.2.1, r.2)
        | none, some read =>
          let r := read s c
          (r.1.advance r.2.1, r.2)
        | none, none => (s, -38, [])

/-- The length of a file, as its inode or its vnode has it. -/
def Io.size (s : Io) : Node → ℕ
  | .ramfs f => (s.ram.inodes f).iSize
  | .fat32 vp => vp.fileSize

/-- `SYS_READ` copies no more than it was asked for, and no more than the file has. -/
theorem length_sysRead {env : Devices} {s : Io} {c : IoCall} {vp : Node}
    (hnode : s.file.vnode = some vp) (hoffset : s.file.offset < 2 ^ 32) :
    (sysRead env s c).2.2.length ≤ min c.len.toNat (s.size vp) := by
  unfold sysRead
  rw [hnode]
  split
  · exact Nat.zero_le _
  dsimp only
  split
  · exact Nat.zero_le _
  next hvalid =>
  have hlen := (validateUserBuf_eq_zero.mp (not_not.mp hvalid)).2.2
  cases vp with
  | ramfs f => exact Ramfs.length_ramfsRead
  | fat32 vp => exact (length_vopReadAt (by omega)).trans (min_le_min_left _ (Nat.sub_le _ _))

/-- `SYS_WRITE_FD` on a descriptor: the result, if the call returns. -/
def sysWriteFd (env : Devices) (s : Io) (c : IoCall) : Io × Option ℤ :=
  if s.file.flags &&& 3 = 0 then (s, some (-9))
  else
    match s.file.vnode with
    | none => (s, some (-9))
    | some vp =>
      if validateUserBuf c.buf c.len ≠ 0 then (s, some (-14))
      else
        match (vOp env vp).vopWriteAt, (vOp env vp).vopWrite with
        | some writeAt, _ =>
          let r := writeAt s c s.file.offset
          (r.1.advance (r.2.getD 0), r.2)
        | none, some write =>
          let r := write s c
          (r.1.advance (r.2.getD 0), r.2)
        | none, none => (s, some (-38))

/-! ## Descriptors and contents -/

/-- The vnode of the descriptor is that of a file with these contents. A FAT32 vnode has the
length of the file and its start cluster; for a file without a cluster it has that of the root
directory. -/
inductive Holds (env : Devices) (dev : DevPtr) (s : Io) (content : List UInt8) : Prop
  | ramfs {f : ℕ} (hnode : s.file.vnode = some (.ramfs f))
      (hfile : Ramfs.RamFile env dev s.ram f content)
  | fat32 {vp : Vnode} {d : ℕ} {l : List ℕ} {e : Live}
      (hnode : s.file.vnode = some (.fat32 vp)) (hfile : FileAt s.volume d l e content)
      (hvnode : VnodeOf vp d e.pos)
      (hstart : vp.startCluster = e.cluster ∨
        vp.startCluster = s.volume.geo.rootCluster ∧ e.cluster = 0)
      (hsize : vp.fileSize = content.length)

/-- `SYS_OPEN` has just led to the descriptor of a file with these contents: the offset is 0, and
a FAT32 vnode is as `lookup` makes it of the entry of the file. -/
inductive Opened (env : Devices) (dev : DevPtr) (s : Io) (content : List UInt8) : Prop
  | ramfs {f : ℕ} (hnode : s.file.vnode = some (.ramfs f)) (hoffset : s.file.offset = 0)
      (hfile : Ramfs.RamFile env dev s.ram f content)
  | fat32 {d : ℕ} {l : List ℕ} {e : Live}
      (hnode : s.file.vnode = some (.fat32 (lookupVnode s.volume d e.entry)))
      (hoffset : s.file.offset = 0) (hfile : FileAt s.volume d l e content)
      (hpos : e.pos * 32 < 2 ^ 32)

/-- What says which file a vnode belongs to. -/
def Node.place : Node → ℕ ⊕ ℕ × ℕ
  | .ramfs f => .inl f
  | .fat32 vp => .inr (vp.dirCluster, vp.dirEntryOffset)

/-- The condition that a vnode puts on a write. On ramfs nothing was written before, and there
is room for the write. On FAT32 the vnode does not have the cluster of the root directory, the
offset is at the end of the file, and there are free clusters. -/
def WriteReady (env : Devices) (s : Io) (c : IoCall) : Option Node → Prop
  | none => False
  | some (.ramfs f) => (s.ram.inodes f).iSize = 0 ∧
      Ramfs.WriteFits env s.ram f c.len.toNat (decide (2 ≤ c.frames))
  | some (.fat32 vp) => vp.startCluster ≠ s.volume.geo.rootCluster ∧
      s.file.offset = vp.fileSize ∧ c.frames ≠ 0 ∧ s.file.offset + c.len.toNat < 2 ^ 32 ∧
        EnoughFree s.volume vp.startCluster (s.file.offset + c.len.toNat)

instance (env : Devices) (s : Io) (c : IoCall) : DecidablePred (WriteReady env s c)
  | none => isFalse id
  | some (.ramfs _) => inferInstanceAs (Decidable (_ ∧ _))
  | some (.fat32 _) => inferInstanceAs (Decidable (_ ∧ _ ∧ _ ∧ _ ∧ _))

/-- The condition on a write: bytes of the caller, a descriptor for writing, and a vnode that is
ready. -/
def WriteMeets (env : Devices) (s : Io) (c : IoCall) : Prop :=
  c.len ≠ 0 ∧ validateUserBuf c.buf c.len = 0 ∧ s.file.flags &&& 3 ≠ 0 ∧
    WriteReady env s c s.file.vnode

instance (env : Devices) (s : Io) (c : IoCall) : Decidable (WriteMeets env s c) :=
  inferInstanceAs (Decidable (_ ∧ _ ∧ _ ∧ _))

/-- The condition that a vnode puts on a read. On ramfs nothing was read before, or there is
nothing to read. What is read is counted in an `int`, and FAT32 takes a frame for it. -/
def ReadReady (s : Io) (c : IoCall) : Option Node → Prop
  | none => False
  | some (.ramfs f) => (s.ram.inodes f).iSize = 0 ∨
      s.file.offset = 0 ∧ min c.len.toNat (s.ram.inodes f).iSize < 2 ^ 31
  | some (.fat32 vp) => vp.fileSize ≤ s.file.offset ∨
      c.frames ≠ 0 ∧ min c.len.toNat (vp.fileSize - s.file.offset) < 2 ^ 31

instance (s : Io) (c : IoCall) : DecidablePred (ReadReady s c)
  | none => isFalse id
  | some (.ramfs _) => inferInstanceAs (Decidable (_ ∨ _))
  | some (.fat32 _) => inferInstanceAs (Decidable (_ ∨ _))

/-- The condition on a read: a buffer of the caller, a descriptor for reading, and a vnode that
is ready. -/
def ReadMeets (s : Io) (c : IoCall) : Prop :=
  c.len ≠ 0 ∧ validateUserBuf c.buf c.len = 0 ∧ s.file.flags &&& 3 ≠ 1 ∧
    ReadReady s c s.file.vnode

instance (s : Io) (c : IoCall) : Decidable (ReadMeets s c) :=
  inferInstanceAs (Decidable (_ ∧ _ ∧ _ ∧ _))

variable {env : Devices} {dev : DevPtr} {s : Io} {c : IoCall} {content : List UInt8}

theorem Opened.holds (h : Opened env dev s content) :
    Holds env dev s content ∧ s.file.offset = 0 := by
  cases h with
  | ramfs hnode hoffset hfile => exact ⟨.ramfs hnode hfile, hoffset⟩
  | @fat32 d l e hnode hoffset hfile hpos =>
    refine ⟨.fat32 hnode hfile ⟨hfile.file, rfl, Nat.mod_eq_of_lt hpos⟩ ?_ hfile.size, hoffset⟩
    simp only [lookupVnode]
    split_ifs with hzero
    · exact .inr ⟨rfl, hzero⟩
    · exact .inl rfl

@[simp] theorem Io.vnode_advance (s : Io) (n : ℤ) : (s.advance n).file.vnode = s.file.vnode := by
  unfold Io.advance
  split_ifs <;> rfl

/-- The offset stays in range as long as it is in the file. -/
theorem Io.offset_advance {n : ℕ} (h : s.file.offset + n < 2 ^ 32) :
    (s.advance n).file.offset = s.file.offset + n := by
  unfold Io.advance
  split_ifs with hpos
  · exact Nat.mod_eq_of_lt h
  · omega

/-- Moving the offset leaves the file. -/
theorem Holds.advance (h : Holds env dev s content) (n : ℤ) :
    Holds env dev (s.advance n) content := by
  have hram : (s.advance n).ram = s.ram := by
    unfold Io.advance
    split_ifs <;> rfl
  have hvolume : (s.advance n).volume = s.volume := by
    unfold Io.advance
    split_ifs <;> rfl
  cases h with
  | ramfs hnode hfile => exact .ramfs (by rw [Io.vnode_advance, hnode]) (by rwa [hram])
  | fat32 hnode hfile hvnode hstart hsize =>
    exact .fat32 (by rw [Io.vnode_advance, hnode]) (by rwa [hvolume]) hvnode (by rwa [hvolume])
      hsize

theorem toNat_ne_zero {n : BitVec 64} (h : n ≠ 0) : n.toNat ≠ 0 :=
  fun hzero => h (BitVec.eq_of_toNat_eq hzero)

/-! ## Writing -/

/-- On ramfs a write has no offset. -/
theorem sysWriteFd_ramfs {f : ℕ} (hnode : s.file.vnode = some (.ramfs f))
    (hbuf : validateUserBuf c.buf c.len = 0) (hflags : s.file.flags &&& 3 ≠ 0) :
    sysWriteFd env s c =
      let r := Ramfs.ramfsWrite env s.ram f c.bytes c.len.toNat (decide (2 ≤ c.frames))
      (Io.advance { s with ram := r.1 } r.2, some r.2) := by
  simp only [sysWriteFd, if_neg hflags, hnode, hbuf, ne_eq, not_true_eq_false, if_false, vOp,
    Option.getD_some]

/-- On FAT32 a write is made at the offset. -/
theorem sysWriteFd_fat32 {vp vp' : Vnode} {v : Volume} {n : ℤ}
    (hnode : s.file.vnode = some (.fat32 vp))
    (hbuf : validateUserBuf c.buf c.len = 0) (hflags : s.file.flags &&& 3 ≠ 0)
    (hwrite : vopWriteAt c.frames s.volume vp c.bytes c.len.toNat s.file.offset =
      some (v, vp', n)) :
    sysWriteFd env s c =
      (Io.advance { s with volume := v, file := { s.file with vnode := some (.fat32 vp') } } n,
        some n) := by
  simp only [sysWriteFd, if_neg hflags, hnode, hbuf, ne_eq, not_true_eq_false, if_false, vOp,
    hwrite, Option.getD_some]

theorem overwrite_length (content bytes : List UInt8) :
    overwrite content content.length bytes = content ++ bytes := by
  simp [overwrite]

section

variable (h : Holds env dev s content) (henv : env.Reliable)
include h henv

/-- A write appends to the file. -/
theorem Holds.sysWriteFd_spec (hmeet : WriteMeets env s c) :
    Holds env dev (sysWriteFd env s c).1 (content ++ c.data) ∧
      (sysWriteFd env s c).1.file.vnode.map Node.place = s.file.vnode.map Node.place ∧
      (sysWriteFd env s c).2 ≠ none := by
  obtain ⟨hlen, hbuf, hflags, hmeet⟩ := hmeet
  have hn := toNat_ne_zero hlen
  cases h with
  | ramfs hnode hfile =>
    rw [hnode] at hmeet
    obtain ⟨hempty, hfits⟩ := hmeet
    have hnil : content = [] := List.eq_nil_of_length_eq_zero (hfile.size ▸ hempty)
    have hwrite := hfile.ramfsWrite_spec henv hn hfits c.bytes
    rw [sysWriteFd_ramfs hnode hbuf hflags, hnil, List.nil_append]
    generalize Ramfs.ramfsWrite env s.ram _ c.bytes c.len.toNat (decide (2 ≤ c.frames)) = r
      at hwrite ⊢
    have hholds : Holds env dev { s with ram := r.1 } c.data := .ramfs hnode hwrite
    exact ⟨hholds.advance r.2, by rw [Io.vnode_advance], by simp⟩
  | @fat32 vp d l e hnode hfile hvnode hstart hsize =>
    rw [hnode] at hmeet
    obtain ⟨hroot, hoffset, hframes, hend, hfree⟩ := hmeet
    have hcluster : vp.startCluster = e.cluster := hstart.resolve_right fun hr => hroot hr.1
    have hoff : s.file.offset = content.length := hoffset.trans hsize
    rw [hcluster, hoff] at hfree
    rw [hoff] at hend
    have hfresh : WriteFresh vp e content.length (content.length + c.len.toNat) := by
      refine ⟨?_, by rw [hsize]⟩
      rcases hfile.bytes with hzero | ⟨k, hk, hkne, -⟩
      · exact .inr ⟨by omega, hzero.1⟩
      · obtain ⟨y, ys, rfl⟩ := List.exists_cons_of_ne_nil hkne
        have := hk.1 ▸ hk.2.1.1
        exact .inl ⟨by omega, hcluster⟩
    obtain ⟨v', vp', e', hwrite, hat, hset, hvnode', hstart', hsize'⟩ :=
      hfile.vopWriteAt_spec hvnode hn hframes le_rfl hend hfresh hfree c.bytes
    rw [overwrite_length] at hat hsize'
    rw [← hset.pos] at hvnode'
    have hplace : (Node.fat32 vp').place = (Node.fat32 vp).place := by
      rw [Node.place, Node.place, hvnode'.dir, hvnode'.offset, hset.pos, hvnode.dir, hvnode.offset]
    rw [← hoff] at hwrite
    rw [sysWriteFd_fat32 hnode hbuf hflags hwrite]
    have hholds : Holds env dev
        { s with volume := v', file := { s.file with vnode := some (.fat32 vp') } }
        (content ++ c.data) := .fat32 rfl hat hvnode' (.inl hstart') hsize'
    dsimp only
    refine ⟨hholds.advance _, ?_, by simp⟩
    rw [Io.vnode_advance, hnode]
    exact congrArg some hplace

/-- A run of writes appends the chunks. -/
theorem Holds.trace_sysWriteFd {writes : List IoCall}
    (hmeets : Guarded (fun s c => (sysWriteFd env s c).1) (WriteMeets env) s writes) :
    Holds env dev (trace (sysWriteFd env) s writes).1
        (content ++ (writes.map IoCall.data).flatten) ∧
      (trace (sysWriteFd env) s writes).1.file.vnode.map Node.place =
        s.file.vnode.map Node.place ∧
      none ∉ (trace (sysWriteFd env) s writes).2 := by
  induction writes generalizing s content with
  | nil => exact ⟨by simpa [trace] using h, rfl, by simp [trace]⟩
  | cons c writes ih =>
    obtain ⟨hholds, hplace, hreturns⟩ := h.sysWriteFd_spec henv hmeets.1
    obtain ⟨hrest, hplace', hreturns'⟩ := ih hholds hmeets.2
    refine ⟨?_, hplace'.trans hplace, ?_⟩
    · simpa [trace, List.append_assoc] using hrest
    · simp only [trace, List.mem_cons, not_or]
      exact ⟨fun heq => hreturns heq.symm, hreturns'⟩

/-! ## Reading -/

/-- A read returns the bytes at the offset and moves it behind them. -/
theorem Holds.sysRead_spec (hoffset : s.file.offset ≤ content.length) (hmeet : ReadMeets s c) :
    (sysRead env s c).2 =
        (((min c.len.toNat (content.length - s.file.offset) : ℕ) : ℤ),
          (content.drop s.file.offset).take c.len.toNat) ∧
      Holds env dev (sysRead env s c).1 content ∧
      (sysRead env s c).1.file.offset =
        s.file.offset + min c.len.toNat (content.length - s.file.offset) := by
  obtain ⟨hlen, hbuf, hflags, hmeet⟩ := hmeet
  have hn := toNat_ne_zero hlen
  have hrange := validateUserBuf_eq_zero.mp hbuf
  cases h with
  | ramfs hnode hfile =>
    rw [hnode] at hmeet
    simp only [ReadReady, hfile.size] at hmeet
    have hzero : s.file.offset = 0 := hmeet.elim (fun hnil => by omega) And.left
    obtain ⟨s', hread, hfile'⟩ := hfile.ramfsRead_eq henv hn
      (hmeet.elim (fun hnil => by omega) And.right)
    simp only [sysRead, if_neg hflags, hnode, if_neg (not_not.mpr hbuf), vOp, hread, hzero,
      List.drop_zero, Nat.sub_zero]
    have hholds : Holds env dev { s with ram := { s.ram with cache := s' } } content :=
      .ramfs hnode hfile'
    refine ⟨trivial, hholds.advance _, ?_⟩
    rw [Io.offset_advance]
    · exact congrArg (· + _) hzero
    · change s.file.offset + _ < 2 ^ 32
      omega
  | @fat32 vp d l e hnode hfile hvnode hstart hsize =>
    rw [hnode] at hmeet
    simp only [ReadReady, hsize] at hmeet
    have hlt := hfile.length_lt
    have hcount : readCount vp.fileSize c.len.toNat s.file.offset =
        min c.len.toNat (content.length - s.file.offset) := by
      rw [readCount_eq (by omega), hsize]
    have hread : vopReadAt c.frames s.volume vp c.len.toNat s.file.offset =
        (((min c.len.toNat (content.length - s.file.offset) : ℕ) : ℤ),
          (content.drop s.file.offset).take c.len.toNat) := by
      rcases hmeet with hend | ⟨hframes, hsmall⟩
      · have hnone : min c.len.toNat (content.length - s.file.offset) = 0 := by omega
        rw [vopReadAt, hcount, hnone, List.drop_eq_nil_of_le hend]
        simp
      · rw [hfile.vopReadAt_eq hframes hcount, asInt_of_lt hsmall]
        refine hstart.imp_right fun hr => ?_
        rcases hfile.bytes with hnil | ⟨k, hk, hkne, -⟩
        · rw [hnil.2]
          simp
        · obtain ⟨y, ys, rfl⟩ := List.exists_cons_of_ne_nil hkne
          have := hk.1 ▸ hk.2.1.1
          omega
    simp only [sysRead, if_neg hflags, hnode, if_neg (not_not.mpr hbuf), vOp, hread]
    exact ⟨trivial, .advance (.fat32 hnode hfile hvnode hstart hsize) _,
      Io.offset_advance (by omega)⟩

/-- A run of reads gets the next pieces of the file. -/
theorem Holds.trace_sysRead {reads : List IoCall} (hoffset : s.file.offset ≤ content.length)
    (hmeets : Guarded (fun s c => (sysRead env s c).1) ReadMeets s reads) :
    (trace (sysRead env) s reads).2 =
      (chunks (content.drop s.file.offset) (reads.map fun c => c.len.toNat)).map
        fun piece => ((piece.length : ℤ), piece) := by
  induction reads generalizing s with
  | nil => rfl
  | cons c reads ih =>
    obtain ⟨hresult, hholds, hnext⟩ := h.sysRead_spec henv hoffset hmeets.1
    have hrest := ih hholds (by omega) hmeets.2
    have hdrop : content.drop (sysRead env s c).1.file.offset =
        (content.drop s.file.offset).drop c.len.toNat := by
      rw [hnext, List.drop_drop]
      by_cases hle : c.len.toNat ≤ content.length - s.file.offset
      · rw [Nat.min_eq_left hle]
      · rw [List.drop_eq_nil_of_le (by omega), List.drop_eq_nil_of_le (by omega)]
    simp only [trace, List.map_cons, chunks, hresult, hrest, hdrop, List.length_take,
      List.length_drop]

end

/-- On a descriptor that was just opened: writes that meet the condition leave the empty file
with the concatenation of the chunks, and reads that meet the condition return, one after the
other, the beginning of the file, with 0 exactly at its end. -/
theorem descriptor_io_sequential (env : Devices) (henv : env.Reliable) (dev : DevPtr) (s : Io)
    (hs : Opened env dev s []) (writes : List IoCall)
    (hwrites : Guarded (fun s c => (sysWriteFd env s c).1) (WriteMeets env) s writes)
    (t : Io) (content : List UInt8) (ht : Opened env dev t content) (reads : List IoCall)
    (hreads : Guarded (fun s c => (sysRead env s c).1) ReadMeets t reads) :
    (Holds env dev (trace (sysWriteFd env) s writes).1 (writes.map IoCall.data).flatten ∧
      (trace (sysWriteFd env) s writes).1.file.vnode.map Node.place =
        s.file.vnode.map Node.place ∧
      none ∉ (trace (sysWriteFd env) s writes).2) ∧
    ((trace (sysRead env) t reads).2.map Prod.snd).flatten <+: content ∧
      ∀ i n bytes, (trace (sysRead env) t reads).2[i]? = some (n, bytes) →
        n = bytes.length ∧
          (n = 0 ↔ (((trace (sysRead env) t reads).2.take i).map Prod.snd).flatten = content) := by
  have hwritten := hs.holds.1.trace_sysWriteFd henv hwrites
  rw [List.nil_append] at hwritten
  obtain ⟨hholds, hzero⟩ := ht.holds
  have hread := hholds.trace_sysRead henv (by omega) hreads
  rw [hzero, List.drop_zero] at hread
  have hsnd : ∀ pieces : List (List UInt8),
      (pieces.map fun piece => ((piece.length : ℤ), piece)).map Prod.snd = pieces := by
    intro pieces
    rw [List.map_map]
    exact List.map_id' pieces
  refine ⟨hwritten, ?_, fun i n bytes hi => ?_⟩
  · rw [hread, hsnd]
    exact flatten_chunks_isPrefix _ _
  · rw [hread, List.getElem?_map, Option.map_eq_some_iff] at hi
    obtain ⟨piece, hpiece, heq⟩ := hi
    cases heq
    refine ⟨rfl, ?_⟩
    rw [hread, ← List.map_take, hsnd, ← chunks_eq_nil_iff _ hpiece]
    · exact ⟨fun h0 => List.eq_nil_of_length_eq_zero (by omega), fun hnil => by rw [hnil]; rfl⟩
    · intro m hm
      obtain ⟨c, hc, rfl⟩ := List.mem_map.mp hm
      exact toNat_ne_zero (hreads.forall_of_imp (fun _ c hmeet => hmeet.1) c hc)

/-! ## Two file systems -/

/-- A file was created on ramfs. -/
def emptyRam : Ramfs.RamFiles :=
  Ramfs.createFile (Ramfs.vfsInit (fun _ _ => 0) fun _ _ _ => 0) 1

/-- A descriptor for reading and writing on the file of ramfs. -/
def openedRam (ram : Ramfs.RamFiles) : Io :=
  ⟨ram, emptyVolume, ⟨some (.ramfs 0), 0, 2, 1⟩⟩

/-- A descriptor for reading and writing on a FAT32 file. -/
def openedFat (v : Volume) (vp : Vnode) : Io :=
  ⟨emptyRam, v, ⟨some (.fat32 vp), 0, 2, 1⟩⟩

/-- A call with a buffer of one byte. -/
def oneByte (b : UInt8) : IoCall := ⟨0x400000, 1, fun _ => b, 8⟩

/-- A byte was written to the FAT32 file `A`. -/
def writtenA : FileRun :=
  FileRun.step (rootVnode smallGeometry) nameA createdA
    (.write 8 0 (fun _ => 66) 1 0)

/-- The length in the entry of `A` was set to 0, but the entry has still a start cluster. -/
def truncatedA : Volume :=
  (updateDirent 8 writtenA.volume ⟨3, 0, attrArchive, 2, 0⟩).getD writtenA.volume

theorem ramFile_emptyRam : Ramfs.RamFile Ramfs.tenBlocks 1 emptyRam 0 [] := by
  refine ⟨by decide, rfl, fun hblocks => absurd rfl hblocks, _,
    (Ramfs.RamFiles.inv_vfsInit 1 _ _).create, ?_⟩
  rfl

theorem writtenA_fileOpen : ∃ l e,
    FileOpen (rootVnode smallGeometry) nameA writtenA l e := by
  obtain ⟨l, e, hopen⟩ := createdA_open
  exact ⟨l, hopen.step _ createdA_writeMeets⟩

/-- The vnode that `lookup` makes of the entry of `A`. -/
theorem opened_writtenA :
    Opened Ramfs.tenBlocks 1 (openedFat writtenA.volume ⟨3, 1, attrArchive, 2, 0⟩) [66] := by
  obtain ⟨l, e, hopen⟩ := writtenA_fileOpen
  have hchain : writtenA.volume.Chain 2 [2] := by decide
  obtain rfl := hopen.file.chain.unique hchain hopen.file.ok.sound
  have hvnode : (findName nameA (listing writtenA.volume [2])).map
      (fun e => lookupVnode writtenA.volume 2 e.entry) =
        some ⟨3, 1, attrArchive, 2, 0⟩ := by decide +kernel
  have hcontent : writtenA.content = [66] := by decide
  have hfile := hopen.file
  rw [hopen.find] at hvnode
  rw [hcontent] at hfile
  exact .fat32 (congrArg (fun vp => some (Node.fat32 vp)) (Option.some.inj hvnode).symm) rfl hfile
    hopen.offset

theorem opened_truncatedA :
    Opened Ramfs.tenBlocks 1 (openedFat truncatedA ⟨3, 0, attrArchive, 2, 0⟩) [] := by
  obtain ⟨l, e, hopen⟩ := writtenA_fileOpen
  have hchain : writtenA.volume.Chain 2 [2] := by decide
  have hsound := hopen.file.ok.sound
  obtain rfl := hopen.file.chain.unique hchain hsound
  have hdata : (findName nameA (listing writtenA.volume [2])).map
      (fun e => (e.pos, e.cluster, lookupVnode truncatedA 2 (e.setFile 0 3).entry)) =
        some (0, 3, ⟨3, 0, attrArchive, 2, 0⟩) := by decide +kernel
  rw [hopen.find] at hdata
  obtain ⟨hpos, hpair⟩ := Prod.mk.inj (Option.some.inj hdata)
  obtain ⟨hcluster, hvnode⟩ := Prod.mk.inj hpair
  have hk : writtenA.volume.Chain 3 [3] := by decide
  have howns : Owns writtenA.volume (.entry 2 e.pos) 3 := by
    rw [← hcluster]
    exact .entry hopen.file.live hopen.file.chain hopen.file.mem hopen.file.notDot (by omega)
  have hvp : VnodeOf ⟨3, 0, attrArchive, 2, 0⟩ 2 e.pos := ⟨by decide, rfl, by rw [hpos]⟩
  have hframes : 8 ≠ 0 := by decide
  obtain ⟨v', hupdate, hset⟩ := hopen.file.toFileEntry.updateDirent_spec hvp hk (by simp)
    (fun o c' l hne ho hl => hopen.file.ok.intact.disjoint ho howns hne hl hk) hframes
  have hk' : v'.Chain 3 [3] := hk.congr hset.geo fun _ _ => by rw [hset.fat]
  have hfile : FileAt v' 2 [2] (e.setFile 0 3) [] :=
    hset.entry.fileAt_setFile hset.cluster rfl (by simp) hk' (by simp) (by simp) rfl
  have hvolume : truncatedA = v' := by rw [truncatedA, hupdate, Option.getD_some]
  rw [← hvolume] at hfile
  exact .fat32 (congrArg (fun vp => some (Node.fat32 vp)) hvnode.symm) rfl hfile
    (show e.pos * 32 < 2 ^ 32 by omega)

/-- Two writes to a FAT32 file that has a cluster and one to a ramfs file, and two reads of a
FAT32 file and one of a ramfs file. -/
theorem descriptor_io_sequential_bytes :
    (Holds Ramfs.tenBlocks 1 (trace (sysWriteFd Ramfs.tenBlocks)
        (openedFat truncatedA ⟨3, 0, attrArchive, 2, 0⟩) [oneByte 66, oneByte 67]).1 [66, 67] ∧
      ((trace (sysRead Ramfs.tenBlocks)
        (openedFat writtenA.volume ⟨3, 1, attrArchive, 2, 0⟩)
        [oneByte 0, oneByte 0]).2.map Prod.snd).flatten <+: [66]) ∧
    Holds Ramfs.tenBlocks 1 (trace (sysWriteFd Ramfs.tenBlocks) (openedRam emptyRam)
        [oneByte 66]).1 [66] ∧
      ((trace (sysRead Ramfs.tenBlocks)
        (openedRam (Ramfs.ramfsWrite Ramfs.tenBlocks emptyRam 0 (fun _ => 66) 1 true).1)
        [oneByte 0]).2.map Prod.snd).flatten <+: [66] := by
  have henv : Ramfs.tenBlocks.Reliable := fun _ => rfl
  have hram := ramFile_emptyRam
  have hwritten := hram.ramfsWrite_spec henv (by decide : 1 ≠ 0)
    (by decide : Ramfs.WriteFits Ramfs.tenBlocks emptyRam 0 1 true) fun _ => 66
  obtain ⟨⟨hfat, -⟩, hread, -⟩ := descriptor_io_sequential Ramfs.tenBlocks henv 1 _
    opened_truncatedA [oneByte 66, oneByte 67] (by decide) _ _ opened_writtenA
    [oneByte 0, oneByte 0] (by decide)
  obtain ⟨⟨hfat', -⟩, hread', -⟩ := descriptor_io_sequential Ramfs.tenBlocks henv 1
    (openedRam emptyRam) (.ramfs rfl rfl hram) [oneByte 66] (by decide)
    (openedRam (Ramfs.ramfsWrite Ramfs.tenBlocks emptyRam 0 (fun _ => 66) 1 true).1) _
    (.ramfs rfl rfl hwritten) [oneByte 0] (by decide)
  exact ⟨⟨hfat, hread⟩, hfat', hread'⟩

/-- Two writes to a ramfs file leave the last byte, and two reads of it return that byte twice. A
write to a FAT32 file that was just created goes to the root directory, where the name of the file
begins with the written byte then. -/
theorem descriptor_io_restarts :
    (Ramfs.ramfsRead Ramfs.tenBlocks (trace (sysWriteFd Ramfs.tenBlocks) (openedRam emptyRam)
        [oneByte 66, oneByte 67]).1.ram 0 2).2 = (1, [67]) ∧
      (trace (sysRead Ramfs.tenBlocks)
        (openedRam (Ramfs.ramfsWrite Ramfs.tenBlocks emptyRam 0 (fun _ => 66) 1 true).1)
        [oneByte 0, oneByte 0]).2 = [(1, [66]), (1, [66])] ∧
      vopLookup 8 createdA.volume (rootVnode smallGeometry) nameA =
        some (0, some ⟨2, 0, attrArchive, 2, 0⟩) ∧
      vopLookup 8 (trace (sysWriteFd Ramfs.tenBlocks)
        (openedFat createdA.volume ⟨2, 0, attrArchive, 2, 0⟩) [oneByte 66]).1.volume
        (rootVnode smallGeometry) nameA = some (-2, none) := by
  refine ⟨by decide +kernel, by decide +kernel, by decide +kernel, by decide +kernel⟩

end Tomahawk.Syscall
