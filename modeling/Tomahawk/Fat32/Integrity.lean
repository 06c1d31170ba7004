import Tomahawk.Fat32.Operations
import Tomahawk.Lib.Run

/-!
# Integrity of a FAT32 volume

A run of the driver is a sequence of calls on the vnodes that it returned. The driver does not
look whether a vnode is still up to date: the vnode of an empty file that `lookup` makes has the
start cluster of the root directory, and the vnode of a file or directory that was removed keeps
clusters that are free. Runs whose calls use vnodes that are up to date, and that remove no `.`
or `..` entry, keep the volume intact.
-/

namespace Tomahawk.Fat32

open Tomahawk.Lib

/-! ## Runs -/

/-- A mounted volume and the vnodes that the driver has returned. -/
structure Fs where
  volume : Volume
  vnodes : List Vnode

/-- The calls, each with the number of free frames and the vnode it is made on. -/
inductive FsOp where
  | lookup (frames dir : ℕ) (name : CStr)
  | create (frames dir : ℕ) (name : CStr)
  | mkdir (frames dir : ℕ) (name : CStr)
  | writeAt (frames file : ℕ) (src : Bytes) (nbyte offset : ℕ)
  | remove (frames dir : ℕ) (name : CStr)

/-- After mounting there is the vnode of the root directory. -/
def Fs.mounted (v : Volume) : Fs := ⟨v, [rootVnode v.geo]⟩

/-- A call on a vnode that returned a volume and perhaps another vnode. A call that does not
return is the last one of a run, so its state is that before the call. -/
def Fs.returned (s : Fs) : Option (Volume × Option Vnode) → Fs
  | none => s
  | some (v, r) => ⟨v, s.vnodes ++ r.toList⟩

/-- One call. -/
def Fs.step (s : Fs) : FsOp → Fs
  | .lookup frames dir name => s.returned do
    let dir ← s.vnodes[dir]?
    let r ← vopLookup frames s.volume dir name
    return (s.volume, r.2)
  | .create frames dir name => s.returned do
    let dir ← s.vnodes[dir]?
    let r ← vopCreate frames s.volume dir name
    return (r.1, r.2.2)
  | .mkdir frames dir name => s.returned do
    let dir ← s.vnodes[dir]?
    let r ← vopMkdir frames s.volume dir name
    return (r.1, r.2.2)
  | .remove frames dir name => s.returned do
    let dir ← s.vnodes[dir]?
    let r ← vopRemove frames s.volume dir name
    return (r.1, none)
  | .writeAt frames file src nbyte offset =>
    match s.vnodes[file]?.bind fun vp => vopWriteAt frames s.volume vp src nbyte offset with
    | none => s
    | some (v, vp, _) => ⟨v, s.vnodes.set file vp⟩

/-- The chains of the live entries and of the root directory are acyclic and pairwise disjoint,
and none of them has a free cluster. -/
structure Separated (v : Volume) : Prop where
  chain : ∀ o c, Owns v o c → ∃ l, v.Chain c l ∧ l ≠ [] ∧ l.Nodup ∧ ∀ x ∈ l, v.fat x ≠ 0
  disjoint : ∀ o o' c c' l l', Owns v o c → Owns v o' c' → o ≠ o' → v.Chain c l →
    v.Chain c' l' → l.Disjoint l'

theorem Intact.separated {v : Volume} (h : Intact v) (hsound : v.geo.Sound) : Separated v := by
  refine ⟨fun o c ho => ?_, fun o o' c c' l l' => h.disjoint⟩
  obtain ⟨l, hl, hne⟩ := h.chain ho
  exact ⟨l, hl, hne, hl.nodup hsound, fun x => hl.fat_ne_zero⟩

/-! ## Vnodes that are up to date -/

/-- The call uses a vnode that is up to date, and removes no `.` or `..` entry. -/
def FsMeets (s : Fs) : FsOp → Prop
  | .lookup _ _ _ => True
  | .create _ i _ | .mkdir _ i _ => ∀ dir, s.vnodes[i]? = some dir → dir.isDir = true →
      DirTarget s.volume dir.startCluster
  | .remove _ i name => ∀ dir, s.vnodes[i]? = some dir → dir.isDir = true →
      DirTarget s.volume dir.startCluster ∧
        ∀ l e, s.volume.Chain dir.startCluster l →
          findName name (listing s.volume l) = some e → ¬ e.IsDot
  | .writeAt _ i _ nbyte _ => ∀ vp, s.vnodes[i]? = some vp → vp.isDir = false → nbyte ≠ 0 →
      ∃ l p, WriteTarget s.volume vp l p

variable {s : Fs} {v v' : Volume}

/-- What holds of the volume before a call and of every volume it returns holds after the call. -/
theorem Fs.volume_returned {P : Volume → Prop} (hP : P s.volume) {i : ℕ} {ρ : Type}
    {call : Vnode → Option ρ} {ret : ρ → Volume × Option Vnode}
    (hcall : ∀ vp r, s.vnodes[i]? = some vp → call vp = some r → P (ret r).1) :
    P (s.returned (s.vnodes[i]?.bind fun vp => (call vp).bind fun r => some (ret r))).volume := by
  cases hvp : s.vnodes[i]? with
  | none => exact hP
  | some vp =>
    rw [Option.bind_some]
    cases hr : call vp with
    | none => exact hP
    | some r => exact hcall vp r hvp hr

theorem Making.volumeOk {dir : Vnode} {name : CStr} {attr : UInt8} {cluster : ℕ} {new : List Live}
    {res : Option (Volume × ℤ × Option Vnode)} {u : Volume × ℤ × Option Vnode}
    (h : Making v dir name attr cluster new res) (hok : VolumeOk v) (hres : res = some u) :
    VolumeOk u.1 := by
  cases h with
  | failed hun =>
    cases hres
    exact hok.of_geo hun.intact hun.geo hun.hint
  | stored _ _ _ hstored =>
    cases hres
    exact hok.of_geo hstored.intact hstored.geo hstored.hint

theorem Removing.volumeOk {dir : Vnode} {res : Option (Volume × ℤ)} {u : Volume × ℤ}
    (h : Removing v dir res) (hok : VolumeOk v) (hres : res = some u) : VolumeOk u.1 := by
  cases h with
  | failed rc =>
    cases hres
    exact hok
  | removed _ _ hremoved =>
    cases hres
    exact hok.of_geo hremoved.intact hremoved.geo hremoved.hint

theorem VolumeOk.step (h : VolumeOk s.volume) (op : FsOp) (hop : FsMeets s op) :
    VolumeOk (s.step op).volume := by
  cases op with
  | lookup frames i name => exact Fs.volume_returned h fun _ _ _ _ => h
  | create frames i name =>
    exact Fs.volume_returned h fun dir r hdir hcall =>
      (h.vopCreate (hop dir hdir) frames name).volumeOk h hcall
  | mkdir frames i name =>
    refine Fs.volume_returned h fun dir r hdir hcall => ?_
    obtain ⟨x, hmade⟩ := h.vopMkdir (hop dir hdir) frames name
    exact hmade.volumeOk h hcall
  | remove frames i name =>
    exact Fs.volume_returned h fun dir r hdir hcall =>
      (h.vopRemove (hop dir hdir) frames).volumeOk h hcall
  | writeAt frames i src nbyte offset =>
    rw [Fs.step]
    cases hvp : s.vnodes[i]? with
    | none => exact h
    | some vp =>
      obtain ⟨v', vp', rc, heq, hok⟩ := h.vopWriteAt (hop vp hvp) frames src offset
      rw [Option.bind_some, heq]
      exact hok

/-- In every run whose calls use vnodes that are up to date, and remove no `.` or `..` entry, the
chains stay acyclic and disjoint and have no free cluster. -/
theorem fat32_chains_separated (v : Volume) (hsound : v.geo.Sound) (hhint : v.HintOk)
    (hi : Intact v) (ops : List FsOp) (hmeets : Guarded Fs.step FsMeets (Fs.mounted v) ops) :
    Separated (run Fs.step (Fs.mounted v) ops).volume := by
  have hstart : VolumeOk (Fs.mounted v).volume := ⟨hsound, hhint, hi⟩
  have hrun : VolumeOk (run Fs.step (Fs.mounted v) ops).volume :=
    run_invariant (I := fun s => VolumeOk s.volume) (fun s op hs hop => hs.step op hop) hstart
      hmeets
  exact hrun.intact.separated hrun.sound

/-! ## An empty volume -/

/-- Eight clusters of 512 bytes and one FAT. -/
def smallGeometry : Geometry where
  bytesPerSec := 512
  secPerClus := 1
  fatStartSector := 1
  fatSizeSectors := 1
  numFats := 1
  dataStartSector := 2
  totalDataClusters := 8
  rootCluster := 2

/-- Only the root directory has a cluster. -/
def emptyVolume : Volume where
  geo := smallGeometry
  freeCount := 7
  nextFree := 3
  disk := Bytes.putLe (fun _ => 0) 520 4 clusterEoc

/-- `"A"` -/
def nameA : CStr := ⟨[65], by decide⟩

theorem smallGeometry_sound : smallGeometry.Sound :=
  ⟨by decide, by decide, by decide, by decide, by decide, by decide, by decide, by decide⟩

theorem emptyVolume_chain : emptyVolume.Chain 2 [2] := by decide

/-- There is nothing but the root directory. -/
theorem emptyVolume_liveDir {d : ℕ} (h : LiveDir emptyVolume d) : d = 2 := by
  have hempty : (listing emptyVolume [2]).length = 0 := by decide
  induction h with
  | root => rfl
  | @sub d l e hd hl he hsub ih =>
    subst ih
    rw [hl.unique emptyVolume_chain smallGeometry_sound, List.eq_nil_of_length_eq_zero hempty] at he
    simp at he

theorem emptyVolume_owns {o : Owner} {c : ℕ} (h : Owns emptyVolume o c) : o = .root ∧ c = 2 := by
  have hempty : (listing emptyVolume [2]).length = 0 := by decide
  cases h with
  | root => exact ⟨rfl, rfl⟩
  | @entry d l e hd hl he hdot hc =>
    obtain rfl := emptyVolume_liveDir hd
    rw [hl.unique emptyVolume_chain smallGeometry_sound, List.eq_nil_of_length_eq_zero hempty] at he
    simp at he

theorem emptyVolume_intact : Intact emptyVolume := by
  refine ⟨fun {o c} ho => ?_, fun {o o' c c' l l'} ho ho' hne => ?_, fun {d l} hd hl => ?_⟩
  · obtain ⟨-, rfl⟩ := emptyVolume_owns ho
    exact ⟨[2], emptyVolume_chain, by simp⟩
  · exact absurd ((emptyVolume_owns ho).1.trans (emptyVolume_owns ho').1.symm) hne
  · obtain rfl := emptyVolume_liveDir hd
    rw [hl.unique emptyVolume_chain smallGeometry_sound]
    have hfree : ∀ d ∈ dirSlots emptyVolume [2], isFreeSlot d = true := by
      have hall : (dirSlots emptyVolume [2]).all isFreeSlot = true := by decide
      exact List.all_eq_true.mp hall
    intro i j de d _ _ _ hj
    exact hfree d (List.mem_of_getElem? hj)

/-- A file is made, and a byte is written through the vnode that `create` returned. -/
def createWrite : List FsOp := [.create 8 0 nameA, .writeAt 8 1 (fun _ => 66) 1 0]

theorem fat32_chains_separated_createWrite :
    Separated (run Fs.step (Fs.mounted emptyVolume) createWrite).volume := by
  refine fat32_chains_separated emptyVolume smallGeometry_sound (by decide) emptyVolume_intact
    createWrite ⟨fun dir hdir _ => ?_, fun vp hvp _ _ => ?_, trivial⟩
  · obtain rfl : rootVnode smallGeometry = dir := Option.some.inj hdir
    refine ⟨.root, fun l hl => ?_⟩
    rw [hl.unique emptyVolume_chain smallGeometry_sound]
    decide
  · have hvnode : (Fs.step (Fs.mounted emptyVolume) (.create 8 0 nameA)).vnodes[1]? =
        some ⟨0, 0, attrArchive, 2, 0⟩ := by decide
    obtain rfl := Option.some.inj (hvnode.symm.trans hvp)
    have hentry : ((listing (Fs.step (Fs.mounted emptyVolume) (.create 8 0 nameA)).volume [2]).any
        fun e => e.pos == 0 && !isDirAttr (dirAttr e.de)) = true := by decide
    obtain ⟨e, he, hfile⟩ := List.any_eq_true.mp hentry
    simp only [Bool.and_eq_true, beq_iff_eq, Bool.not_eq_true'] at hfile
    exact ⟨[2], 0, .root, by decide, rfl,
      .inl ⟨e, he, hfile.1, hfile.2⟩, .inl (by decide)⟩

/-- A file is made and looked up, and a byte is written through the vnode that `lookup` returned,
which has the start cluster of the root directory. -/
def lookupWrite : List FsOp := [.create 8 0 nameA, .lookup 8 0 nameA, .writeAt 8 2 (fun _ => 66) 1 0]

theorem fat32_lookup_write_shares_root :
    ¬ Separated (run Fs.step (Fs.mounted emptyVolume) lookupWrite).volume := by
  intro hsep
  have hchain : (run Fs.step (Fs.mounted emptyVolume) lookupWrite).volume.Chain 2 [2] := by
    decide
  have hentry : ((listing (run Fs.step (Fs.mounted emptyVolume) lookupWrite).volume [2]).any
      fun e => decide (e.cluster = 2 ∧ ¬ e.IsDot)) = true := by decide
  obtain ⟨e, he, hlive⟩ := List.any_eq_true.mp hentry
  obtain ⟨hcluster, hdot⟩ : e.cluster = 2 ∧ ¬ e.IsDot := by simpa using hlive
  have hroot : LiveDir (run Fs.step (Fs.mounted emptyVolume) lookupWrite).volume 2 := .root
  have howns := Owns.entry hroot hchain he hdot (by omega)
  rw [hcluster] at howns
  have hdisj := hsep.disjoint .root _ 2 2 [2] [2] .root howns (by simp) hchain hchain
  exact hdisj List.mem_cons_self List.mem_cons_self

end Tomahawk.Fat32
