import Tomahawk.Fat32.Chains
import Tomahawk.Fat32.Names

/-!
# Directories of a FAT32 volume

The directory iterator of `fat32.c` and the operations on top of it: `lookup`, `create`, `mkdir`
and `remove`. `frames` is the number of free frames at the call: buffers of the driver take one
frame each and give it back, and a vnode takes two. A call that does not return is `none`.
-/

namespace Tomahawk.Fat32

open Tomahawk.Lib

/-! ## Entries -/

/-- The entry at an index of a buffer, thirty-two bytes. -/
def direntAt (buf : Bytes) (i : ℕ) : Bytes := fun k => if k < 32 then buf (i * 32 + k) else 0

/-- `DIR_Name`. -/
def dirName (de : Bytes) : List UInt8 := de.slice 0 11

/-- `DIR_Attr`. -/
def dirAttr (de : Bytes) : UInt8 := de 11

/-- `DIR_NTRes`. -/
def dirNtRes (de : Bytes) : UInt8 := de 12

/-- `DIR_FileSize`. -/
def dirFileSize (de : Bytes) : ℕ := de.le 28 4

/-- `FAT32_DIRENT_CLUSTER`. -/
def direntCluster (de : Bytes) : ℕ := de.le 20 2 * 2 ^ 16 + de.le 26 2

/-- `FAT32_ATTR_DIRECTORY`. -/
def attrDirectory : UInt8 := 0x10

/-- `FAT32_ATTR_ARCHIVE`. -/
def attrArchive : UInt8 := 0x20

/-- `FAT32_DIRENT_FREE`. -/
def direntFree : UInt8 := 0xE5

/-- `FAT32_IS_LFN`. -/
def isLfn (de : Bytes) : Bool := dirAttr de &&& 0x3F == 0x0F

/-- The entry is a volume label. -/
def isVolumeId (de : Bytes) : Bool := dirAttr de &&& 0x08 != 0

/-- The attributes of a directory. -/
def isDirAttr (attr : UInt8) : Bool := attr &&& attrDirectory != 0

/-- An entry with a name, attributes and a start cluster. Its other fields are zero. -/
def newDirent (name : List UInt8) (attr ntRes : UInt8) (cluster : ℕ) : Bytes :=
  let named : Bytes := fun k =>
    if k < 11 then name.getD k 0 else if k = 11 then attr else if k = 12 then ntRes else 0
  (named.putLe 20 2 (cluster / 2 ^ 16)).putLe 26 2 cluster

/-! ## The iterator -/

/-- The long name that was read so far. -/
structure Lfn where
  active : Bool
  checksum : UInt8
  buf : Bytes

/-- At the start of a directory. -/
def Lfn.start : Lfn := ⟨false, 0, fun _ => 0⟩

/-- No long name is in front of the next entry. -/
def Lfn.off (lfn : Lfn) : Lfn := { lfn with active := false }

/-- A long-name entry was read. -/
def Lfn.add (lfn : Lfn) (de : Bytes) : Lfn :=
  let lfn := if de 0 &&& 0x40 != 0 then ⟨true, de 13, fun _ => 0⟩ else lfn
  let seq := (de 0 &&& 0x1F).toNat
  if lfn.active ∧ 1 ≤ seq ∧ seq ≤ 20 then { lfn with buf := lfnExtract de lfn.buf seq } else lfn

/-- The name that is reported for an entry. -/
def Lfn.name (lfn : Lfn) (de : Bytes) : CStr :=
  if lfn.active ∧ lfnChecksum (dirName de) = lfn.checksum then CStr.ofBytes (lfn.buf.slice 0 255)
  else shortnameToStr (dirName de) (dirNtRes de)

/-- A name that is reported has at most 255 characters. -/
theorem length_lfnName (lfn : Lfn) (de : Bytes) : (lfn.name de).bytes.length ≤ 255 := by
  have htrim : ∀ part : List UInt8, (trimSpaces part).length ≤ part.length := fun part =>
    (List.rdropWhile_prefix _ part).length_le
  unfold Lfn.name
  split_ifs
  · exact (List.takeWhile_prefix _).length_le.trans (by simp)
  · refine (List.takeWhile_prefix _).length_le.trans ?_
    have hbase := (htrim ((dirName de).take 8)).trans (List.length_take_le _ _)
    have hext := (htrim (((dirName de).drop 8).take 3)).trans (List.length_take_le _ _)
    rw [List.length_append, List.length_map]
    split_ifs
    · rw [List.length_nil]
      omega
    · rw [List.length_cons, List.length_map]
      omega

/-- What the callback of the iterator is given. -/
structure Entry where
  name : CStr
  de : Bytes
  offset : ℕ

/-- The loop of `fat32_iterate_dir` over the entries of one cluster, the callback `f` with its
context `s`. The iteration ends on the left. -/
def scanSlots {σ : Type} (f : σ → Entry → σ × Bool) (buf : Bytes) (base : ℕ) :
    ℕ → ℕ → Lfn → σ → σ ⊕ Lfn × σ
  | 0, _, lfn, s => .inr (lfn, s)
  | n + 1, i, lfn, s =>
    let de := direntAt buf i
    if de 0 = 0 then .inl s
    else if de 0 = direntFree then scanSlots f buf base n (i + 1) lfn.off s
    else if isLfn de then scanSlots f buf base n (i + 1) (lfn.add de) s
    else if isVolumeId de then scanSlots f buf base n (i + 1) lfn.off s
    else
      let r := f s ⟨lfn.name de, de, (base + i * 32) % 2 ^ 32⟩
      if r.2 then .inl r.1 else scanSlots f buf base n (i + 1) lfn.off r.1

/-- The loop of `fat32_iterate_dir` over the clusters. Its guard admits data clusters only, so
reading them does not fail. -/
def iterateLoop {σ : Type} (f : σ → Entry → σ × Bool) (v : Volume) :
    ℕ → ℕ → ℕ → Lfn → σ → Option σ
  | 0, _, _, _, _ => none
  | n + 1, cluster, idx, lfn, s =>
    if 2 ≤ cluster ∧ ¬ isEoc cluster then
      match scanSlots f (clusterBuf v cluster) (idx * v.geo.clusterSize)
          (v.geo.clusterSize / 32) 0 lfn s with
      | .inl s => some s
      | .inr (lfn, s) => iterateLoop f v n (fatRead v cluster) (idx + 1) lfn s
    else some s

/-- `fat32_iterate_dir`: the result and the context. -/
def iterateDir {σ : Type} (frames : ℕ) (v : Volume) (start : ℕ) (f : σ → Entry → σ × Bool)
    (s : σ) : Option (ℤ × σ) :=
  if frames = 0 then some (-1, s)
  else
    match iterateLoop f v walkSteps start 0 Lfn.start s with
    | none => none
    | some s => some (0, s)

/-! ## Vnodes -/

/-- `struct fat32_vnode_data`. The type of the vnode is that of its attributes. -/
structure Vnode where
  startCluster : ℕ
  fileSize : ℕ
  attr : UInt8
  dirCluster : ℕ
  dirEntryOffset : ℕ
  deriving DecidableEq

/-- `v_type` is `VDIR`. -/
def Vnode.isDir (vp : Vnode) : Bool := isDirAttr vp.attr

/-- `fat32_create_vnode`: two frames. -/
def createVnode (frames : ℕ) (vp : Vnode) : Option Vnode := if frames < 2 then none else some vp

/-- The vnode that mounting returns. -/
def rootVnode (g : Geometry) : Vnode := ⟨g.rootCluster, 0, attrDirectory, 0, 0⟩

/-- The callbacks that look for a name. -/
def nameCallback (name : CStr) (s : Option Entry) (e : Entry) : Option Entry × Bool :=
  if nameCmpCi e.name.bytes name.bytes = 0 then (some e, true) else (s, false)

/-- The vnode that `lookup_callback` makes of an entry. An entry without a cluster gets the
cluster of the root directory. -/
def lookupVnode (v : Volume) (dirStart : ℕ) (e : Entry) : Vnode where
  startCluster := if direntCluster e.de = 0 then v.geo.rootCluster else direntCluster e.de
  fileSize := dirFileSize e.de
  attr := dirAttr e.de
  dirCluster := dirStart
  dirEntryOffset := e.offset

/-- `fat32_vop_lookup`. The vnode is made while the buffer of the iterator is in use. -/
def vopLookup (frames : ℕ) (v : Volume) (dir : Vnode) (name : CStr) : Option (ℤ × Option Vnode) :=
  if ¬ dir.isDir then some (-1, none)
  else
    match iterateDir frames v dir.startCluster (nameCallback name) none with
    | none => none
    | some (rc, found) =>
      if rc < 0 then some (-1, none)
      else
        match found with
        | none => some (-2, none)
        | some e => some (0, createVnode (frames - 1) (lookupVnode v dir.startCluster e))

/-! ## Slots -/

/-- The scan of one cluster for a free slot. -/
def freeSlot (buf : Bytes) : ℕ → ℕ → Option ℕ
  | 0, _ => none
  | n + 1, i =>
    if buf (i * 32) = 0 ∨ buf (i * 32) = direntFree then some i else freeSlot buf n (i + 1)

/-- The first loop of `fat32_find_free_dirent`: the offset of a free slot on the left, or the
number of clusters. -/
def findFreeLoop (v : Volume) : ℕ → ℕ → ℕ → Option (ℕ ⊕ ℕ)
  | 0, _, _ => none
  | n + 1, cluster, idx =>
    if 2 ≤ cluster ∧ ¬ isEoc cluster then
      match freeSlot (clusterBuf v cluster) (v.geo.clusterSize / 32) 0 with
      | some i => some (.inl ((idx * v.geo.clusterSize + i * 32) % 2 ^ 32))
      | none => findFreeLoop v n (fatRead v cluster) (idx + 1)
    else some (.inr idx)

/-- Fill a cluster with zeros. A failure is ignored. -/
def zeroCluster (v : Volume) (cluster : ℕ) : Volume :=
  match writeCluster v cluster fun _ => 0 with
  | some v => v
  | none => v

/-- `fat32_find_free_dirent`: the offset of a free slot, if necessary in a new cluster. -/
def findFreeDirent (frames : ℕ) (v : Volume) (dirStart : ℕ) : Option (Volume × Option ℕ) :=
  if frames = 0 then some (v, none)
  else
    match findFreeLoop v walkSteps dirStart 0 with
    | none => none
    | some (.inl offset) => some (v, some offset)
    | some (.inr idx) =>
      match lastCluster v dirStart with
      | none => none
      | some last =>
        let r := extendChain v last
        if r.2 = 0 then some (r.1, none)
        else some (zeroCluster r.1 r.2, some (idx * v.geo.clusterSize % 2 ^ 32))

/-- Read the cluster of an entry, change it at the entry and write it back. This is
`fat32_write_dirent_at` with the entry stored, and the same steps of the other operations. -/
def patchDirent (frames : ℕ) (v : Volume) (dirStart offset : ℕ) (patch : ℕ → Bytes → Bytes) :
    Option Volume :=
  match skipLinks v (offset / v.geo.clusterSize) dirStart with
  | none => none
  | some clus =>
    if frames = 0 then none
    else
      match readCluster v clus with
      | none => none
      | some buf => writeCluster v clus (patch (offset % v.geo.clusterSize) buf)

/-- Store an entry at an offset of a buffer. -/
def storeDirent (de : Bytes) (off : ℕ) (buf : Bytes) : Bytes := buf.copyIn off 32 de 0

/-- `fat32_write_dirent_at`. -/
def writeDirentAt (frames : ℕ) (v : Volume) (dirStart offset : ℕ) (de : Bytes) : Option Volume :=
  patchDirent frames v dirStart offset (storeDirent de)

/-- `fat32_update_dirent`: the size and the start cluster of a vnode go to its entry. -/
def updateDirent (frames : ℕ) (v : Volume) (vp : Vnode) : Option Volume :=
  if vp.dirCluster < 2 then none
  else patchDirent frames v vp.dirCluster vp.dirEntryOffset fun off buf =>
    ((buf.putLe (off + 28) 4 vp.fileSize).putLe (off + 20) 2 (vp.startCluster / 2 ^ 16)).putLe
      (off + 26) 2 vp.startCluster

/-! ## Operations -/

/-- `fat32_vop_create`: the result, and the vnode that was stored. -/
def vopCreate (frames : ℕ) (v : Volume) (dir : Vnode) (name : CStr) :
    Option (Volume × ℤ × Option Vnode) :=
  if ¬ dir.isDir then some (v, -1, none)
  else
    match vopLookup frames v dir name with
    | none => none
    | some (rc, existing) =>
      if rc = 0 then some (v, -3, existing)
      else
        match findFreeDirent frames v dir.startCluster with
        | none => none
        | some (v, none) => some (v, -1, none)
        | some (v, some offset) =>
          let de := newDirent (strToShortname name) attrArchive (computeNtRes name) 0
          match writeDirentAt frames v dir.startCluster offset de with
          | none => some (v, -1, none)
          | some v =>
            match createVnode frames ⟨0, 0, attrArchive, dir.startCluster, offset⟩ with
            | none => some (v, -1, none)
            | some vp => some (v, 0, some vp)

/-- The short name of the entry for the directory itself. -/
def dotName : List UInt8 := padSpaces 11 [dot]

/-- The short name of the entry for the parent directory. -/
def dotDotName : List UInt8 := padSpaces 11 [dot, dot]

/-- The first cluster of a new directory. -/
def newDirCluster (g : Geometry) (parent cluster : ℕ) : Bytes :=
  let self := newDirent dotName attrDirectory 0 cluster
  let up := newDirent dotDotName attrDirectory 0 (if parent = g.rootCluster then 0 else parent)
  storeDirent up 32 (storeDirent self 0 fun _ => 0)

/-- `fat32_vop_mkdir`. -/
def vopMkdir (frames : ℕ) (v : Volume) (dir : Vnode) (name : CStr) :
    Option (Volume × ℤ × Option Vnode) :=
  if ¬ dir.isDir then some (v, -1, none)
  else
    match vopLookup frames v dir name with
    | none => none
    | some (rc, existing) =>
      if rc = 0 then some (v, -3, existing)
      else
        let r := allocCluster v
        if r.2 = 0 then some (r.1, -1, none)
        else if frames = 0 then some (freeChain r.1 r.2, -1, none)
        else
          match writeCluster r.1 r.2 (newDirCluster v.geo dir.startCluster r.2) with
          | none => some (freeChain r.1 r.2, -1, none)
          | some v =>
            match findFreeDirent frames v dir.startCluster with
            | none => none
            | some (v, none) => some (freeChain v r.2, -1, none)
            | some (v, some offset) =>
              let de := newDirent (strToShortname name) attrDirectory (computeNtRes name) r.2
              match writeDirentAt frames v dir.startCluster offset de with
              | none => some (freeChain v r.2, -1, none)
              | some v =>
                match createVnode frames ⟨r.2, 0, attrDirectory, dir.startCluster, offset⟩ with
                | none => some (v, -1, none)
                | some vp => some (v, 0, some vp)

/-- `empty_check_callback`: the context tells whether there is another entry. -/
def emptyCallback (s : Bool) (e : Entry) : Bool × Bool :=
  if e.name.bytes = [dot] ∨ e.name.bytes = [dot, dot] then (s, false) else (true, true)

/-- `fat32_dir_is_empty`. -/
def dirIsEmpty (frames : ℕ) (v : Volume) (start : ℕ) : Option Bool :=
  match iterateDir frames v start emptyCallback false with
  | none => none
  | some (_, found) => some !found

/-- `fat32_vop_remove`. -/
def vopRemove (frames : ℕ) (v : Volume) (dir : Vnode) (name : CStr) : Option (Volume × ℤ) :=
  if ¬ dir.isDir then some (v, -1)
  else
    match iterateDir frames v dir.startCluster (nameCallback name) none with
    | none => none
    | some (_, none) => some (v, -2)
    | some (_, some e) =>
      let cluster := direntCluster e.de
      let empty :=
        if isDirAttr (dirAttr e.de) ∧ 2 ≤ cluster then dirIsEmpty frames v cluster else some true
      match empty with
      | none => none
      | some false => some (v, -4)
      | some true =>
        let patch : ℕ → Bytes → Bytes := fun off buf => Function.update buf off direntFree
        match patchDirent frames v dir.startCluster e.offset patch with
        | none => some (v, -1)
        | some v => some (if 2 ≤ cluster then freeChain v cluster else v, 0)

end Tomahawk.Fat32
