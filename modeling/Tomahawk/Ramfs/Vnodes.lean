import Tomahawk.Lib.CString
import Tomahawk.Lib.LinkedList
import Tomahawk.Memory.Frames

/-!
# Vnodes and directory entries of ramfs

The in-memory tree of `vfs.c`. Vnodes, inodes, page cache entries and directory entries
each take a frame and are given by its address; a frame that is freed keeps its contents
until it is taken again. A directory entry is the bytes of its frame, since `vfs_rename`
can run over the end of the name. Spin locks do nothing in a sequence of calls, and the
fields that no function here reads are left out.
-/

namespace Tomahawk.Ramfs

open Function Tomahawk.Lib

/-- `enum vtype` -/
inductive VType where
  | vnon
  | vreg
  | vdir
  | vchr
  | vblk
  deriving DecidableEq

/-- The frames and what is in them, by address: the fields of `struct vnode`, of
`struct inode` and of `struct page_cache_entry`, and the bytes of directory entries. -/
structure Fs where
  /-- The bitmap of free frames, by frame number. -/
  free : ℕ → Bool
  vType : ℕ → VType
  vData : ℕ → ℕ
  vParent : ℕ → ℕ
  vChildren : ℕ → ℕ
  vNchildren : ℕ → ℤ
  iRefcount : ℕ → ℕ
  cacheList : ℕ → ℕ
  physicalAddr : ℕ → ℕ
  cacheNext : ℕ → ℕ
  ents : ℕ → Bytes
  rootVnode : ℕ

/-- `pfa_alloc_frame`: the address of the first free frame, or 0. -/
def Fs.alloc (bits : ℕ) (s : Fs) : Fs × ℕ :=
  match Memory.findFree s.free bits 0 with
  | some i => ({ s with free := update s.free i false }, i * 4096)
  | none => (s, 0)

/-- `pfa_free_frame` -/
def Fs.release (bits : ℕ) (s : Fs) (a : ℕ) : Fs :=
  { s with free := if a = 0 ∨ bits ≤ a / 4096 then s.free
                   else update s.free (a / 4096) true }

/-- The field `vnode` of a directory entry. -/
def Fs.entVnode (s : Fs) (e : ℕ) : ℕ := (s.ents e).le 64 8

/-- The field `next` of a directory entry. -/
def Fs.entNext (s : Fs) (e : ℕ) : ℕ := (s.ents e).le 72 8

/-- The comparison of the name of an entry, which starts its frame. -/
def Fs.nameEq (s : Fs) (e : ℕ) (name : CStr) : Bool := (s.ents e).strEq 0 name.bytes

/-- Replace the bytes of an entry. -/
def Fs.setEnt (s : Fs) (e : ℕ) (b : Bytes) : Fs := { s with ents := update s.ents e b }

/-- A `struct dir_entry **`: the head of a directory's list or the link in an entry. -/
inductive Link where
  | head (dir : ℕ)
  | next (e : ℕ)
  deriving DecidableEq

/-- The pointer at a link. -/
def Fs.load (s : Fs) : Link → ℕ
  | .head dir => s.vChildren dir
  | .next e => s.entNext e

/-- Store a pointer at a link. -/
def Fs.store (s : Fs) (l : Link) (a : ℕ) : Fs :=
  { s with
    vChildren := match l with
      | .head dir => update s.vChildren dir a
      | .next _ => s.vChildren
    ents := match l with
      | .head _ => s.ents
      | .next e => update s.ents e ((s.ents e).putLe 72 8 a) }

/-- The loop over the entries of a list, to the link of the first one with the name. The
fuel is the number of frames, so it ends early only in a cycle. -/
def Fs.findLink (s : Fs) (name : CStr) : ℕ → Link → Option Link
  | 0, _ => none
  | fuel + 1, l =>
    if s.load l = 0 then none
    else if s.nameEq (s.load l) name then some l
    else Fs.findLink s name fuel (.next (s.load l))

/-- `vfs_lookup_ramfs`: the vnode, or 0. -/
def vfsLookupRamfs (bits : ℕ) (s : Fs) (dir : ℕ) (name : CStr) : ℕ :=
  if dir = 0 ∨ s.vType dir ≠ .vdir then 0
  else
    match s.findLink name (bits + 1) (.head dir) with
    | some l => s.entVnode (s.load l)
    | none => 0

/-- The fields of a new vnode and its inode. -/
def Fs.initVnode (s : Fs) (type : VType) (vp ip : ℕ) : Fs :=
  { s with
    vType := update s.vType vp type
    vData := update s.vData vp ip
    vParent := update s.vParent vp 0
    vChildren := update s.vChildren vp 0
    vNchildren := update s.vNchildren vp 0
    iRefcount := update s.iRefcount ip 1
    cacheList := update s.cacheList ip 0 }

/-- `vfs_create_vnode`: the vnode, or 0. -/
def vfsCreateVnode (bits : ℕ) (s : Fs) (type : VType) : Fs × ℕ :=
  match s.alloc bits with
  | (s, 0) => (s, 0)
  | (s, vp) =>
    match s.alloc bits with
    | (s, 0) => (s.release bits vp, 0)
    | (s, ip) => (s.initVnode type vp ip, vp)

/-- The loop of `vfs_free_vnode` over the page cache. -/
def freeCache (bits : ℕ) : ℕ → Fs → ℕ → Fs
  | 0, s, _ => s
  | fuel + 1, s, entry =>
    if entry = 0 then s
    else
      let next := s.cacheNext entry
      let s := if s.physicalAddr entry ≠ 0 then s.release bits (s.physicalAddr entry) else s
      freeCache bits fuel (s.release bits entry) next

/-- `vfs_free_vnode` -/
def vfsFreeVnode (bits : ℕ) (s : Fs) (vp : ℕ) : Fs :=
  if vp = 0 then s
  else
    let ip := s.vData vp
    let s := if ip ≠ 0 then (freeCache bits (bits + 1) s (s.cacheList ip)).release bits ip else s
    s.release bits vp

/-- The bytes of a new entry: zeroed, with at most 63 bytes of the name and the vnode. -/
def newEnt (b : Bytes) (name : CStr) (child : ℕ) : Bytes :=
  let zeroed : Bytes := fun k => if k < 80 then 0 else b k
  (zeroed.putStr 0 (name.take 63).bytes).putLe 64 8 child

/-- Put an entry in front of the list of a directory. -/
def Fs.prepend (s : Fs) (dir e : ℕ) : Fs :=
  let s := s.setEnt e ((s.ents e).putLe 72 8 (s.vChildren dir))
  { s with
    vChildren := update s.vChildren dir e
    vNchildren := update s.vNchildren dir (s.vNchildren dir + 1) }

/-- `vfs_add_dirent` -/
def vfsAddDirent (bits : ℕ) (s : Fs) (dir : ℕ) (name : CStr) (child : ℕ) : Fs × ℤ :=
  if dir = 0 ∨ child = 0 then (s, -1)
  else if s.vType dir ≠ .vdir then (s, -1)
  else if vfsLookupRamfs bits s dir name ≠ 0 then (s, -1)
  else
    match s.alloc bits with
    | (s, 0) => (s, -1)
    | (s, de) =>
      let s := (s.setEnt de (newEnt (s.ents de) name child)).prepend dir de
      ({ s with vParent := update s.vParent child dir }, 0)

/-- A new vnode of a type in a directory. -/
def createIn (bits : ℕ) (s : Fs) (type : VType) (parent : ℕ) (name : CStr) : Fs × ℕ :=
  if parent = 0 ∨ s.vType parent ≠ .vdir then (s, 0)
  else if vfsLookupRamfs bits s parent name ≠ 0 then (s, 0)
  else
    match vfsCreateVnode bits s type with
    | (s, 0) => (s, 0)
    | (s, vp) =>
      match vfsAddDirent bits s parent name vp with
      | (s, 0) => (s, vp)
      | (s, _) => (vfsFreeVnode bits s vp, 0)

/-- `vfs_mkdir_ramfs` -/
def vfsMkdirRamfs (bits : ℕ) (s : Fs) (parent : ℕ) (name : CStr) : Fs × ℕ :=
  createIn bits s .vdir parent name

/-- `vfs_create_file` -/
def vfsCreateFile (bits : ℕ) (s : Fs) (parent : ℕ) (name : CStr) : Fs × ℕ :=
  createIn bits s .vreg parent name

/-- Take the entry at a link out of the list of a directory. -/
def Fs.splice (s : Fs) (dir : ℕ) (l : Link) (next : ℕ) : Fs :=
  let s := s.store l next
  { s with vNchildren := update s.vNchildren dir (s.vNchildren dir - 1) }

/-- The reference count after `--`, a 32-bit one. -/
def decRef (n : ℕ) : ℕ := (n + (2 ^ 32 - 1)) % 2 ^ 32

/-- Drop a reference of an inode. -/
def Fs.dropRef (s : Fs) (ip : ℕ) : Fs :=
  { s with iRefcount := update s.iRefcount ip (decRef (s.iRefcount ip)) }

/-- `vfs_unlink` -/
def vfsUnlink (bits : ℕ) (s : Fs) (parent : ℕ) (name : CStr) : Fs × ℤ :=
  if parent = 0 ∨ s.vType parent ≠ .vdir then (s, -1)
  else
    match s.findLink name (bits + 1) (.head parent) with
    | none => (s, -1)
    | some pp =>
      let de := s.load pp
      let target := s.entVnode de
      if s.vType target = .vdir ∧ 0 < s.vNchildren target then (s, -1)
      else
        let s := (s.splice parent pp (s.entNext de)).release bits de
        let ip := s.vData target
        if ip = 0 then (s, 0)
        else
          let s := s.dropRef ip
          (if s.iRefcount ip = 0 then vfsFreeVnode bits s target else s, 0)

/-- The part of `vfs_rename` that takes out an entry with the new name: `none` when it is a
directory with entries. The vnode loses a reference and is not freed. -/
def displace (bits : ℕ) (s : Fs) (newParent : ℕ) (newName : CStr) : Option Fs :=
  match s.findLink newName (bits + 1) (.head newParent) with
  | none => some s
  | some pp =>
    let de := s.load pp
    let existing := s.entVnode de
    if s.vType existing = .vdir ∧ 0 < s.vNchildren existing then none
    else
      let s := (s.splice newParent pp (s.entNext de)).release bits de
      some (if s.vData existing = 0 then s else s.dropRef (s.vData existing))

/-- `vfs_rename`. The link to the source entry is found before an entry with the new name is
taken out, and up to 254 bytes of the new name are stored. -/
def vfsRename (bits : ℕ) (s : Fs) (oldParent : ℕ) (oldName : CStr) (newParent : ℕ)
    (newName : CStr) : Fs × ℤ :=
  if oldParent = 0 ∨ newParent = 0 then (s, -1)
  else if s.vType oldParent ≠ .vdir ∨ s.vType newParent ≠ .vdir then (s, -1)
  else
    match s.findLink oldName (bits + 1) (.head oldParent) with
    | none => (s, -1)
    | some srcPp =>
      let srcDe := s.load srcPp
      let target := s.entVnode srcDe
      match displace bits s newParent newName with
      | none => (s, -1)
      | some s =>
        let s := s.splice oldParent srcPp (s.entNext srcDe)
        let s := s.setEnt srcDe ((s.ents srcDe).putStr 0 (newName.take 254).bytes)
        let s := s.prepend newParent srcDe
        ({ s with vParent := update s.vParent target newParent }, 0)

end Tomahawk.Ramfs
