import Tomahawk.Fat32.Integrity

/-!
# Enumerating a directory

`fat32_vop_readdir` scans the directory from its start and counts the entries up to the one that
is asked for. Calling it again and again with the offset that it returns enumerates the entries in
live slots, in the order of the slots.
-/

namespace Tomahawk.Fat32

open Tomahawk.Lib

/-- `VFS_NAME_MAX` -/
def vfsNameMax : ℕ := 255

/-- `struct vfs_dirent`. -/
structure VfsDirent where
  name : CStr
  isDir : Bool
  size : ℕ
  cluster : ℕ

/-- What `readdir_callback` stores for an entry. -/
def Entry.dirent (e : Entry) : VfsDirent where
  name := e.name.take vfsNameMax
  isDir := isDirAttr (dirAttr e.de)
  size := dirFileSize e.de
  cluster := direntCluster e.de

/-- `struct readdir_ctx`: the counter, and the entry with the next offset if it was found. -/
structure ReaddirCtx where
  current : ℕ
  found : Option (VfsDirent × ℕ)

/-- `readdir_callback`. The counter has 64 bits. -/
def readdirCallback (target : ℕ) (ctx : ReaddirCtx) (e : Entry) : ReaddirCtx × Bool :=
  if ctx.current = target then
    ({ ctx with found := some (e.dirent, (ctx.current + 1) % 2 ^ 64) }, true)
  else ({ ctx with current := (ctx.current + 1) % 2 ^ 64 }, false)

/-- `fat32_vop_readdir`: the result, and the entry with the offset for the next call. -/
def vopReaddir (frames : ℕ) (v : Volume) (dir : Vnode) (offset : ℕ) :
    Option (ℤ × Option (VfsDirent × ℕ)) :=
  if ¬ dir.isDir then some (-1, none)
  else
    match iterateDir frames v dir.startCluster (readdirCallback offset) ⟨0, none⟩ with
    | none => none
    | some (rc, ctx) =>
      if rc < 0 then some (-1, none)
      else
        match ctx.found with
        | some r => some (0, some r)
        | none => some (1, none)

/-- Call `readdir` until it returns 1, at most `n` times. -/
def readdirAll (frames : ℕ) (v : Volume) (dir : Vnode) : ℕ → ℕ → Option (List VfsDirent)
  | 0, _ => none
  | n + 1, offset =>
    match vopReaddir frames v dir offset with
    | some (_, some (dent, next)) => (readdirAll frames v dir n next).map (dent :: ·)
    | some (1, none) => some []
    | _ => none

/-! ## Live slots -/

instance (de : Bytes) : Decidable (LiveSlot de) :=
  decidable_of_iff (de 0 ≠ 0 ∧ de 0 ≠ direntFree ∧ isLfn de = false ∧ isVolumeId de = false)
    ⟨fun h => ⟨h.1, h.2.1, h.2.2.1, h.2.2.2⟩,
      fun h => ⟨h.notEnd, h.notFree, h.notLfn, h.notLabel⟩⟩

/-- The live slots of a directory: those before its end that hold neither a deleted entry nor a
part of a long name nor a volume label. -/
def liveSlots (slots : List Bytes) : List Bytes :=
  (slots.takeWhile fun de => de 0 != 0).filter fun de => decide (LiveSlot de)

variable {v : Volume} {l : List ℕ} {lfn : Lfn} {p target : ℕ} {es : List Entry} {dir : Vnode}
  {frames : ℕ}

theorem liveSlots_cons_of_ne {de : Bytes} (h : de 0 ≠ 0) (slots : List Bytes) :
    liveSlots (de :: slots) = if LiveSlot de then de :: liveSlots slots else liveSlots slots := by
  rw [liveSlots, List.takeWhile_cons_of_pos (by simpa using h), List.filter_cons]
  simp only [decide_eq_true_eq]
  rfl

/-- What is reported are the live slots in their order. -/
theorem map_de_reported (lfn : Lfn) (p : ℕ) (slots : List Bytes) :
    (reported lfn p slots).map Live.de = liveSlots slots := by
  induction slots generalizing lfn p with
  | nil => rfl
  | cons de slots ih =>
    by_cases hend : de 0 = 0
    · rw [reported_end hend, liveSlots, List.takeWhile_cons_of_neg (by simp [hend])]
      rfl
    rw [liveSlots_cons_of_ne hend]
    by_cases hlive : LiveSlot de
    · rw [reported_live hlive, List.map_cons, ih, if_pos hlive]
    · obtain ⟨es, hes, rfl | ⟨hlive', -⟩⟩ := reported_cons hend lfn p
      · rw [hes, List.nil_append, ih, if_neg hlive]
      · exact absurd hlive' hlive

theorem length_liveSlots (slots : List Bytes) : (liveSlots slots).length ≤ slots.length :=
  (List.length_filter_le _ _).trans (List.takeWhile_sublist _).length_le

/-! ## Counting up to an entry -/

/-- The callback counts the entries and stops at the target, if there are so many. -/
theorem foldUntil_readdirCallback (es : List Entry) {current target : ℕ} (hle : current ≤ target)
    (hbits : current + es.length < 2 ^ 64) :
    (foldUntil (readdirCallback target) ⟨current, none⟩ es).found =
      es[target - current]?.map fun e => (e.dirent, target + 1) := by
  induction es generalizing current with
  | nil => rfl
  | cons e es ih =>
    rw [List.length_cons] at hbits
    rw [foldUntil, readdirCallback]
    by_cases heq : current = target
    · subst heq
      simp only [if_true, Nat.sub_self, List.getElem?_cons_zero, Option.map_some]
      rw [Nat.mod_eq_of_lt (by omega)]
    · rw [if_neg heq]
      simp only [Bool.false_eq_true, if_false]
      rw [Nat.mod_eq_of_lt (by omega), ih (by omega) (by omega),
        show target - current = target - (current + 1) + 1 by omega, List.getElem?_cons_succ]

/-- The number of entries of a directory. -/
theorem length_listing_lt (hsound : v.geo.Sound) {c : ℕ} (hchain : v.Chain c l) :
    (listing v l).length < 2 ^ 36 := by
  have hlive := length_liveSlots (dirSlots v l)
  rw [← map_de_reported Lfn.start 0, List.length_map, length_dirSlots] at hlive
  have hlength := hchain.length_le hsound.entriesOk
  have hmarks := hsound.clusters_le
  have hpage := hsound.page
  have hsize := hsound.clusterSize_eq
  have hmul : l.length * v.geo.perCluster ≤ 2 ^ 28 * 128 :=
    Nat.mul_le_mul (by omega) (by omega)
  exact lt_of_le_of_lt hlive (by omega)

section

variable (hsound : v.geo.Sound) (hchain : v.Chain dir.startCluster l) (hdir : dir.isDir = true)
  (hframes : frames ≠ 0)
include hsound hchain hdir hframes

/-- One call: the entry at the offset, or 1. -/
theorem vopReaddir_eq (offset : ℕ) :
    vopReaddir frames v dir offset =
      match (listing v l)[offset]? with
      | some e => some (0, some (e.entry.dirent, offset + 1))
      | none => some (1, none) := by
  have hfound := foldUntil_readdirCallback ((listing v l).map Live.entry) (Nat.zero_le offset) (by
    have := length_listing_lt hsound hchain
    rw [List.length_map]
    omega)
  rw [Nat.sub_zero, List.getElem?_map, Option.map_map] at hfound
  rw [vopReaddir, if_neg (by simpa using hdir), hchain.iterateDir_eq hsound hframes]
  simp only [lt_self_iff_false, if_false, hfound]
  cases (listing v l)[offset]? with
  | none => rfl
  | some e => rfl

theorem readdirAll_eq {n offset : ℕ} (hn : (listing v l).length < offset + n)
    (hoffset : offset ≤ (listing v l).length) :
    readdirAll frames v dir n offset =
      some (((listing v l).drop offset).map fun e => e.entry.dirent) := by
  induction n generalizing offset with
  | zero => omega
  | succ n ih =>
    rw [readdirAll, vopReaddir_eq hsound hchain hdir hframes]
    by_cases hlt : offset < (listing v l).length
    · rw [List.getElem?_eq_getElem hlt, List.drop_eq_getElem_cons hlt]
      simp only [List.map_cons]
      rw [ih (by omega) (by omega)]
      rfl
    · rw [List.getElem?_eq_none (by omega), List.drop_eq_nil_of_le (by omega)]
      rfl

end

/-- Calling `readdir` from offset 0 until it returns 1 yields each live entry once, in the order of
the slots, with its type, size and cluster, under the name that the iterator reports. -/
theorem readdir_enumerates (frames : ℕ) (v : Volume) (dir : Vnode) (l : List ℕ) (n : ℕ)
    (hsound : v.geo.Sound) (hchain : v.Chain dir.startCluster l) (hdir : dir.isDir = true)
    (hframes : frames ≠ 0) (hn : (liveSlots (dirSlots v l)).length < n) :
    ∃ dents, readdirAll frames v dir n 0 = some dents ∧
      dents.map (fun d => (d.isDir, d.size, d.cluster)) =
        (liveSlots (dirSlots v l)).map (fun de =>
          (isDirAttr (dirAttr de), dirFileSize de, direntCluster de)) ∧
      dents.map VfsDirent.name = (listing v l).map fun e => e.name.take vfsNameMax := by
  rw [← map_de_reported Lfn.start 0, List.length_map] at hn
  refine ⟨_, readdirAll_eq hsound hchain hdir hframes ?_ (Nat.zero_le _), ?_, ?_⟩
  · rw [Nat.zero_add]
    exact hn
  · rw [← map_de_reported Lfn.start 0]
    simp only [List.drop_zero, List.map_map]
    rfl
  · simp only [List.drop_zero, List.map_map]
    rfl

/-- The root directory with a deleted entry and then an empty file. -/
def deletedThenFile : Volume :=
  { emptyVolume with
    disk := storeDirent (direntFor nameA attrArchive 0) (1024 + 32)
      (Function.update emptyVolume.disk 1024 direntFree) }

theorem readdir_enumerates_file : ∃ dents,
    readdirAll 1 deletedThenFile (rootVnode smallGeometry) 2 0 = some dents ∧
      dents.map (fun d => (d.isDir, d.size, d.cluster)) = [(false, 0, 0)] := by
  have hlive : (liveSlots (dirSlots deletedThenFile [2])).map (fun de =>
      (isDirAttr (dirAttr de), dirFileSize de, direntCluster de)) = [(false, 0, 0)] := by decide
  have hlength : (liveSlots (dirSlots deletedThenFile [2])).length = 1 := by
    rfl
  obtain ⟨dents, hall, hdata, -⟩ := readdir_enumerates 1 deletedThenFile (rootVnode smallGeometry)
    [2] 2 smallGeometry_sound (by decide) rfl (by decide) (by omega)
  exact ⟨dents, hall, hdata.trans hlive⟩

end Tomahawk.Fat32
