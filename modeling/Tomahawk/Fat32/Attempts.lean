import Tomahawk.Fat32.Faults
import Tomahawk.Fat32.Readdir

/-!
# Calls on a device that fails

The operations of `fat32.c` on a device with an end, whose accesses can fail, when frames can be
refused. A walk of the source that has no bound of its own gets a number of turns, and a call that
needs more turns is `none`. Every frame that the source takes and gives back is counted: a buffer
is one frame, and a vnode keeps two until the volume is unmounted.
-/

namespace Tomahawk.Fat32

open Tomahawk.Lib

/-- A frame was refused. -/
def Call.refused (s : Call) : Call := { s with frames := s.frames + 1 }

/-- A frame was granted. -/
def Call.granted (s : Call) : Call := { s with frames := s.frames + 1, held := s.held + 1 }

/-- `pfa_free_frame` -/
def Call.freeFrame (s : Call) : Call := { s with held := s.held - 1 }

namespace Faults

/-! ## Clusters, frames and walks -/

/-- `fat32_read_cluster` -/
def readCluster (F : Faults) (s : Call) (cluster : ℕ) : Call × Option Bytes :=
  if cluster < 2 then (s, none)
  else F.readBytes s (s.vol.geo.clusterOffset cluster) s.vol.geo.clusterSize

/-- The bytes that a write moves: those in front of the end of the device, and of a write that
fails those of some blocks before its last one. -/
def moved (F : Faults) (s : Call) (offset count : ℕ) : ℕ :=
  let room := min count (F.blocks * Block.blockSize - offset)
  match F.write s.writes with
  | none => room
  | some b =>
    let first := offset / Block.blockSize
    let last := (offset + count - 1) / Block.blockSize
    min room ((first + min b (last - first)) * Block.blockSize - offset)

/-- `fat32_write_cluster` -/
def writeCluster (F : Faults) (s : Call) (cluster : ℕ) (buf : Bytes) : Call × Bool :=
  if cluster < 2 then (s, false)
  else
    let offset := s.vol.geo.clusterOffset cluster
    let count := F.moved s offset s.vol.geo.clusterSize
    ({ s with
      vol := { s.vol with disk := s.vol.disk.copyIn offset count buf 0 }
      writes := s.writes + 1 }, decide (count = s.vol.geo.clusterSize))

/-- `pfa_alloc_frame` -/
def allocFrame (F : Faults) (s : Call) : Call × Bool :=
  if F.frame s.frames then (s.refused, false) else (s.granted, true)

/-- The walk of `n` links before a write or an update of an entry. -/
def skipLinks (F : Faults) : ℕ → Call → ℕ → Call × Option ℕ
  | 0, s, cur => (s, some cur)
  | n + 1, s, cur =>
    match F.fatRead s cur with
    | (s, cur) => if cur = 0 ∨ isEoc cur then (s, none) else skipLinks F n s cur

/-- The walk to the last cluster of a chain. -/
def lastLoop (F : Faults) : ℕ → Call → ℕ → Option (Call × ℕ)
  | 0, _, _ => none
  | n + 1, s, last =>
    match F.fatRead s last with
    | (s, next) => if 2 ≤ next ∧ ¬ isEoc next then lastLoop F n s next else some (s, last)

/-- The loop of `fat32_chain_length`, with the steps that its guard allows. -/
def chainLengthLoop (F : Faults) : ℕ → Call → ℕ → ℕ → Call × ℕ
  | 0, s, _, count => (s, count)
  | n + 1, s, cur, count =>
    if 2 ≤ cur ∧ ¬ isEoc cur ∧ cur ≠ clusterBad then
      match F.fatRead s cur with
      | (s, next) =>
        if next = 0 then (s, count + 1) else chainLengthLoop F n s next (count + 1)
    else (s, count)

/-- `fat32_chain_length` -/
def chainLength (F : Faults) (s : Call) (start : ℕ) : Call × ℕ :=
  F.chainLengthLoop (s.vol.geo.totalDataClusters + 1) s start 0

/-- Zero a new cluster, if there is a frame for the zeros. A failure is ignored. -/
def zeroFresh (F : Faults) (s : Call) (cluster : ℕ) : Call :=
  match F.allocFrame s with
  | (s, false) => s
  | (s, true) => (F.writeCluster s cluster fun _ => 0).1.freeFrame

/-! ## Directories -/

/-- The loop of `fat32_iterate_dir` over the clusters. -/
def iterateLoop {σ : Type} (F : Faults) (f : σ → Entry → σ × Bool) :
    ℕ → Call → ℕ → ℕ → Lfn → σ → Option (Call × ℤ × σ)
  | 0, _, _, _, _, _ => none
  | n + 1, s, cluster, idx, lfn, ctx =>
    if 2 ≤ cluster ∧ ¬ isEoc cluster then
      match F.readCluster s cluster with
      | (s, none) => some (s, -1, ctx)
      | (s, some buf) =>
        match scanSlots f buf (idx * s.vol.geo.clusterSize) (s.vol.geo.clusterSize / 32) 0 lfn
            ctx with
        | .inl ctx => some (s, 0, ctx)
        | .inr (lfn, ctx) =>
          match F.fatRead s cluster with
          | (s, next) => iterateLoop F f n s next (idx + 1) lfn ctx
    else some (s, 0, ctx)

/-- `fat32_iterate_dir` -/
def iterateDir {σ : Type} (F : Faults) (turns : ℕ) (s : Call) (start : ℕ)
    (f : σ → Entry → σ × Bool) (ctx : σ) : Option (Call × ℤ × σ) :=
  match F.allocFrame s with
  | (s, false) => some (s, -1, ctx)
  | (s, true) =>
    match F.iterateLoop f turns s start 0 Lfn.start ctx with
    | none => none
    | some (s, r) => some (s.freeFrame, r)

/-- `fat32_create_vnode`. The table of the mount has room for 256 vnodes. -/
def createVnode (F : Faults) (s : Call) (vp : Vnode) : Call × Option Vnode :=
  match F.allocFrame s with
  | (s, false) => (s, none)
  | (s, true) =>
    match F.allocFrame s with
    | (s, false) => (s.freeFrame, none)
    | (s, true) =>
      ({ s with vnodes := if s.vnodes < 256 then s.vnodes + 1 else s.vnodes }, some vp)

/-- `fat32_vop_lookup`. The callback makes the vnode before the buffer of the iterator is given
back; which allocations fail depends on their number only, so the order does not matter. -/
def vopLookup (F : Faults) (turns : ℕ) (s : Call) (dir : Vnode) (name : CStr) :
    Option (Call × ℤ × Option Vnode) :=
  if ¬ dir.isDir then some (s, -1, none)
  else
    match F.iterateDir turns s dir.startCluster (nameCallback name) none with
    | none => none
    | some (s, rc, found) =>
      if rc < 0 then some (s, -1, none)
      else
        match found with
        | none => some (s, -2, none)
        | some e =>
          match F.createVnode s (lookupVnode s.vol dir.startCluster e) with
          | (s, vp) => some (s, 0, vp)

/-- `fat32_vop_readdir` -/
def vopReaddir (F : Faults) (turns : ℕ) (s : Call) (dir : Vnode) (offset : ℕ) :
    Option (Call × ℤ × Option (VfsDirent × ℕ)) :=
  if ¬ dir.isDir then some (s, -1, none)
  else
    match F.iterateDir turns s dir.startCluster (readdirCallback offset) ⟨0, none⟩ with
    | none => none
    | some (s, rc, ctx) =>
      if rc < 0 then some (s, -1, none)
      else
        match ctx.found with
        | some r => some (s, 0, some r)
        | none => some (s, 1, none)

/-- The first loop of `fat32_find_free_dirent`: a cluster that cannot be read, the offset of a free
slot, or the number of clusters. -/
def findFreeLoop (F : Faults) : ℕ → Call → ℕ → ℕ → Option (Call × Option (ℕ ⊕ ℕ))
  | 0, _, _, _ => none
  | n + 1, s, cluster, idx =>
    if 2 ≤ cluster ∧ ¬ isEoc cluster then
      match F.readCluster s cluster with
      | (s, none) => some (s, none)
      | (s, some buf) =>
        match freeSlot buf (s.vol.geo.clusterSize / 32) 0 with
        | some i => some (s, some (.inl ((idx * s.vol.geo.clusterSize + i * 32) % 2 ^ 32)))
        | none =>
          match F.fatRead s cluster with
          | (s, next) => findFreeLoop F n s next (idx + 1)
    else some (s, some (.inr idx))

/-- `fat32_find_free_dirent` -/
def findFreeDirent (F : Faults) (turns : ℕ) (s : Call) (dirStart : ℕ) :
    Option (Call × Option ℕ) :=
  match F.allocFrame s with
  | (s, false) => some (s, none)
  | (s, true) =>
    match F.findFreeLoop turns s dirStart 0 with
    | none => none
    | some (s, none) => some (s.freeFrame, none)
    | some (s, some (.inl offset)) => some (s.freeFrame, some offset)
    | some (s, some (.inr idx)) =>
      match F.lastLoop turns s.freeFrame dirStart with
      | none => none
      | some (s, last) =>
        match F.extendChain s last with
        | (s, 0) => some (s, none)
        | (s, new) => some (F.zeroFresh s new, some (idx * s.vol.geo.clusterSize % 2 ^ 32))

/-- Read the cluster of an entry, change it at the entry and write it back. -/
def patchDirent (F : Faults) (s : Call) (dirStart offset : ℕ) (patch : ℕ → Bytes → Bytes) :
    Call × Bool :=
  match F.skipLinks (offset / s.vol.geo.clusterSize) s dirStart with
  | (s, none) => (s, false)
  | (s, some clus) =>
    match F.allocFrame s with
    | (s, false) => (s, false)
    | (s, true) =>
      match F.readCluster s clus with
      | (s, none) => (s.freeFrame, false)
      | (s, some buf) =>
        match F.writeCluster s clus (patch (offset % s.vol.geo.clusterSize) buf) with
        | (s, written) => (s.freeFrame, written)

/-- `fat32_write_dirent_at` -/
def writeDirentAt (F : Faults) (s : Call) (dirStart offset : ℕ) (de : Bytes) : Call × Bool :=
  F.patchDirent s dirStart offset (storeDirent de)

/-- `fat32_update_dirent` -/
def updateDirent (F : Faults) (s : Call) (vp : Vnode) : Call × Bool :=
  if vp.dirCluster < 2 then (s, false)
  else F.patchDirent s vp.dirCluster vp.dirEntryOffset fun off buf =>
    ((buf.putLe (off + 28) 4 vp.fileSize).putLe (off + 20) 2 (vp.startCluster / 2 ^ 16)).putLe
      (off + 26) 2 vp.startCluster

/-- `fat32_vop_create` -/
def vopCreate (F : Faults) (turns : ℕ) (s : Call) (dir : Vnode) (name : CStr) :
    Option (Call × ℤ × Option Vnode) :=
  if ¬ dir.isDir then some (s, -1, none)
  else
    match F.vopLookup turns s dir name with
    | none => none
    | some (s, rc, existing) =>
      if rc = 0 then some (s, -3, existing)
      else
        match F.findFreeDirent turns s dir.startCluster with
        | none => none
        | some (s, none) => some (s, -1, none)
        | some (s, some offset) =>
          let de := newDirent (strToShortname name) attrArchive (computeNtRes name) 0
          match F.writeDirentAt s dir.startCluster offset de with
          | (s, false) => some (s, -1, none)
          | (s, true) =>
            match F.createVnode s ⟨0, 0, attrArchive, dir.startCluster, offset⟩ with
            | (s, none) => some (s, -1, none)
            | (s, some vp) => some (s, 0, some vp)

/-- `fat32_vop_mkdir` -/
def vopMkdir (F : Faults) (turns : ℕ) (s : Call) (dir : Vnode) (name : CStr) :
    Option (Call × ℤ × Option Vnode) :=
  if ¬ dir.isDir then some (s, -1, none)
  else
    match F.vopLookup turns s dir name with
    | none => none
    | some (s, rc, existing) =>
      if rc = 0 then some (s, -3, existing)
      else
        match F.allocCluster s with
        | (s, 0) => some (s, -1, none)
        | (s, new) =>
          match F.allocFrame s with
          | (s, false) => some ((F.freeChain s new).1, -1, none)
          | (s, true) =>
            match F.writeCluster s new (newDirCluster s.vol.geo dir.startCluster new) with
            | (s, false) => some ((F.freeChain s.freeFrame new).1, -1, none)
            | (s, true) =>
              match F.findFreeDirent turns s.freeFrame dir.startCluster with
              | none => none
              | some (s, none) => some ((F.freeChain s new).1, -1, none)
              | some (s, some offset) =>
                let de := newDirent (strToShortname name) attrDirectory (computeNtRes name) new
                match F.writeDirentAt s dir.startCluster offset de with
                | (s, false) => some ((F.freeChain s new).1, -1, none)
                | (s, true) =>
                  match F.createVnode s ⟨new, 0, attrDirectory, dir.startCluster, offset⟩ with
                  | (s, none) => some (s, -1, none)
                  | (s, some vp) => some (s, 0, some vp)

/-- `fat32_dir_is_empty`. A scan that fails has found nothing. -/
def dirIsEmpty (F : Faults) (turns : ℕ) (s : Call) (start : ℕ) : Option (Call × Bool) :=
  match F.iterateDir turns s start emptyCallback false with
  | none => none
  | some (s, _, found) => some (s, !found)

/-- `fat32_vop_remove` -/
def vopRemove (F : Faults) (turns : ℕ) (s : Call) (dir : Vnode) (name : CStr) :
    Option (Call × ℤ) :=
  if ¬ dir.isDir then some (s, -1)
  else
    match F.iterateDir turns s dir.startCluster (nameCallback name) none with
    | none => none
    | some (s, _, none) => some (s, -2)
    | some (s, _, some e) =>
      let cluster := direntCluster e.de
      match (if isDirAttr (dirAttr e.de) ∧ 2 ≤ cluster then F.dirIsEmpty turns s cluster
          else some (s, true)) with
      | none => none
      | some (s, false) => some (s, -4)
      | some (s, true) =>
        let patch : ℕ → Bytes → Bytes := fun off buf => Function.update buf off direntFree
        match F.patchDirent s dir.startCluster e.offset patch with
        | (s, false) => some (s, -1)
        | (s, true) => some (if 2 ≤ cluster then (F.freeChain s cluster).1 else s, 0)

/-! ## Files -/

/-- The loop of `fat32_vop_read_at`: the bytes that were copied, and whether the loop was left
because a cluster could not be read. -/
def readLoop (F : Faults) : ℕ → Call → ℕ → ℕ → ℕ → List UInt8 → Call × List UInt8 × Bool
  | 0, s, _, _, _, bytes => (s, bytes, false)
  | fuel + 1, s, cur, off, n, bytes =>
    if 0 < n ∧ 2 ≤ cur ∧ ¬ isEoc cur then
      match F.readCluster s cur with
      | (s, none) => (s, bytes, true)
      | (s, some buf) =>
        let toCopy := min n (s.vol.geo.clusterSize - off)
        match F.fatRead s cur with
        | (s, next) => readLoop F fuel s next 0 (n - toCopy) (bytes ++ buf.slice off toCopy)
    else (s, bytes, false)

/-- `fat32_vop_read_at` -/
def vopReadAt (F : Faults) (s : Call) (vp : Vnode) (nbyte offset : ℕ) : Call × ℤ × List UInt8 :=
  let nbyte := readCount vp.fileSize nbyte offset
  if nbyte = 0 then (s, 0, [])
  else
    match F.skipLinks (offset / s.vol.geo.clusterSize % 2 ^ 32) s vp.startCluster with
    | (s, none) => (s, 0, [])
    | (s, some cur) =>
      match F.allocFrame s with
      | (s, false) => (s, -1, [])
      | (s, true) =>
        match F.readLoop nbyte s cur (offset % s.vol.geo.clusterSize) nbyte [] with
        | (s, bytes, left) =>
          (s.freeFrame, if left ∧ bytes = [] then -1 else asInt bytes.length, bytes)

/-- The first cluster of a file that has none. -/
def firstCluster (F : Faults) (s : Call) (vp : Vnode) : Call × Option Vnode :=
  if 2 ≤ vp.startCluster then (s, some vp)
  else
    match F.allocCluster s with
    | (s, 0) => (s, none)
    | (s, new) => (F.zeroFresh s new, some { vp with startCluster := new })

/-- The loop that extends a chain of `i` clusters by `n` more. When that fails it stops with the
number of clusters so far. -/
def extendLoop (F : Faults) : ℕ → Call → ℕ → ℕ → Call × Option ℕ
  | 0, s, _, _ => (s, none)
  | n + 1, s, last, i =>
    match F.extendChain s last with
    | (s, 0) => (s, some i)
    | (s, new) => extendLoop F n (F.zeroFresh s new) new (i + 1)

/-- Extend the chain to `needed` clusters. -/
def growFile (F : Faults) (turns : ℕ) (s : Call) (start needed : ℕ) :
    Option (Call × Option ℕ) :=
  match F.chainLength s start with
  | (s, len) =>
    if len < needed then
      match F.lastLoop turns s start with
      | none => none
      | some (s, last) => some (F.extendLoop (needed - len) s last len)
    else some (s, none)

/-- The loop of `fat32_vop_write_at`: the number of bytes that were copied, and whether the loop
was left because a cluster could not be read or written. -/
def writeLoop (F : Faults) (src : Bytes) : ℕ → Call → ℕ → ℕ → ℕ → ℕ → Call × ℕ × Bool
  | 0, s, _, _, done, _ => (s, done, false)
  | fuel + 1, s, cur, off, done, n =>
    if 0 < n ∧ 2 ≤ cur ∧ ¬ isEoc cur then
      match F.readCluster s cur with
      | (s, none) => (s, done, true)
      | (s, some buf) =>
        let toCopy := min n (s.vol.geo.clusterSize - off)
        match F.writeCluster s cur (buf.copyIn off toCopy src done) with
        | (s, false) => (s, done, true)
        | (s, true) =>
          match F.fatRead s cur with
          | (s, next) => writeLoop F src fuel s next 0 (done + toCopy) (n - toCopy)
    else (s, done, false)

/-- What is left to do when the chain has its clusters. A loop that was left returns the bytes so
far, without the update of the size and of the entry. -/
def writeBytes (F : Faults) (s : Call) (vp : Vnode) (src : Bytes)
    (nbyte offset endOffset : ℕ) : Call × Vnode × ℤ :=
  match F.skipLinks (offset / s.vol.geo.clusterSize % 2 ^ 32) s vp.startCluster with
  | (s, none) => (s, vp, -1)
  | (s, some cur) =>
    match F.allocFrame s with
    | (s, false) => (s, vp, -1)
    | (s, true) =>
      match F.writeLoop src nbyte s cur (offset % s.vol.geo.clusterSize) 0 nbyte with
      | (s, done, true) => (s.freeFrame, vp, if 0 < done then asInt done else -1)
      | (s, done, false) =>
        let vp :=
          if vp.fileSize < endOffset then { vp with fileSize := endOffset % 2 ^ 32 } else vp
        ((F.updateDirent s.freeFrame vp).1, vp, asInt done)

/-- `fat32_vop_write_at` -/
def vopWriteAt (F : Faults) (turns : ℕ) (s : Call) (vp : Vnode) (src : Bytes)
    (nbyte offset : ℕ) : Option (Call × Vnode × ℤ) :=
  if vp.isDir then some (s, vp, -1)
  else if nbyte = 0 then some (s, vp, 0)
  else
    match F.firstCluster s vp with
    | (s, none) => some (s, vp, -1)
    | (s, some vp) =>
      let size := s.vol.geo.clusterSize
      let endOffset := (offset + nbyte) % 2 ^ 64
      let needed := (endOffset + size - 1) % 2 ^ 64 / size % 2 ^ 32
      match F.growFile turns s vp.startCluster needed with
      | none => none
      | some (s, none) => some (F.writeBytes s vp src nbyte offset endOffset)
      | some (s, some i) =>
        -- The disk is full: as many bytes as fit are written.
        let maxEnd := i * size
        if maxEnd ≤ offset then some (s, vp, -1)
        else some (F.writeBytes s vp src (maxEnd - offset) offset maxEnd)

end Faults

end Tomahawk.Fat32
