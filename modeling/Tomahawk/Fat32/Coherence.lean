import Tomahawk.Fat32.ReadWrite
import Tomahawk.Fat32.Naming

/-!
# Several vnodes of one file

Every `lookup` makes a vnode with its own copy of the length and the start cluster of the file,
and a write through one vnode changes the entry on the disk and its own copy, but not those of
the others. Runs that use a vnode only while its copy is good for the call read what was written,
whichever vnode wrote it.
-/

namespace Tomahawk.Fat32

open Tomahawk.Lib

/-- A volume, the vnodes of one file of it, and the bytes that the file should have. -/
structure FileRun where
  volume : Volume
  vnodes : List Vnode
  content : List UInt8

/-- The calls: looking the file up once more, and reads and writes through one of its vnodes. -/
inductive FileOp where
  | lookup (frames : ℕ)
  | read (frames i nbyte offset : ℕ)
  | write (frames i : ℕ) (src : Bytes) (nbyte offset : ℕ)

/-- One call on the file with a name in a directory. A write replaces bytes of the reference
string. -/
def FileRun.step (dir : Vnode) (name : CStr) (s : FileRun) : FileOp → FileRun
  | .lookup frames =>
    match vopLookup frames s.volume dir name with
    | none => s
    | some (_, r) => { s with vnodes := s.vnodes ++ r.toList }
  | .read _ _ _ _ => s
  | .write frames i src nbyte offset =>
    match s.vnodes[i]? with
    | none => s
    | some vp =>
      match vopWriteAt frames s.volume vp src nbyte offset with
      | none => s
      | some (v, vp, _) => ⟨v, s.vnodes.set i vp, overwrite s.content offset (src.slice 0 nbyte)⟩

/-- The state of an open file: its entry is found under its name, and the vnodes are its own. -/
structure FileOpen (dir : Vnode) (name : CStr) (s : FileRun) (l : List ℕ) (e : Live) : Prop where
  isDir : dir.isDir = true
  file : FileAt s.volume dir.startCluster l e s.content
  find : findName name (listing s.volume l) = some e
  offset : e.pos * 32 < 2 ^ 32
  vnodes : ∀ vp ∈ s.vnodes, VnodeOf vp dir.startCluster e.pos

/-- The fields of the vnode are good for a read. -/
structure ReadFresh (vp : Vnode) (e : Live) (length nbyte offset : ℕ) : Prop where
  count : readCount vp.fileSize nbyte offset = min nbyte (length - offset)
  start : vp.startCluster = e.cluster ∨ min nbyte (length - offset) = 0

/-- The call goes through a vnode that is good for it. Writes do not begin behind the end of the
file, and there are free clusters for them. -/
def FileMeets (dir : Vnode) (name : CStr) (s : FileRun) : FileOp → Prop
  | .lookup _ => True
  | .read frames i nbyte offset => frames ≠ 0 ∧ ∀ vp l e, s.vnodes[i]? = some vp →
      s.volume.Chain dir.startCluster l → findName name (listing s.volume l) = some e →
        ReadFresh vp e s.content.length nbyte offset
  | .write frames i _ nbyte offset => nbyte = 0 ∨ frames ≠ 0 ∧ offset ≤ s.content.length ∧
      offset + nbyte < 2 ^ 32 ∧ ∀ vp l e, s.vnodes[i]? = some vp →
        s.volume.Chain dir.startCluster l → findName name (listing s.volume l) = some e →
          WriteFresh vp e s.content.length (offset + nbyte) ∧
            EnoughFree s.volume e.cluster (offset + nbyte)

variable {dir vp : Vnode} {name : CStr} {s : FileRun} {l : List ℕ} {e e' : Live} {v v' : Volume}

/-- The entry is still found under its name. -/
theorem EntrySet.findName (h : EntrySet v v' l e e')
    (hfind : findName name (listing v l) = some e) :
    findName name (listing v' l) = some e' := by
  obtain ⟨es₁, es₂, hlist, hlist', hother⟩ := h.split
  obtain ⟨-, hname⟩ := findName_eq_some hfind
  have hfirst : es₁.find? (fun e => decide (SameName e.name name)) = none := by
    rw [Fat32.findName, hlist, List.find?_append] at hfind
    cases hes : es₁.find? (fun e => decide (SameName e.name name)) with
    | none => rfl
    | some e₀ =>
      rw [hes, Option.some_or] at hfind
      cases hfind
      exact absurd rfl (hother _ (List.mem_of_find?_eq_some hes))
  rw [Fat32.findName, hlist', List.find?_append, hfirst, Option.none_or, List.find?_cons_of_pos]
  rw [h.name]
  exact decide_eq_true hname

/-- The entry that `create` makes is that of an empty file. -/
theorem fileAt_direntFor {d p : ℕ} {reportedName : CStr} (h : VolumeOk v) (hd : LiveDir v d)
    (hl : v.Chain d l)
    (hmem : (⟨p, reportedName, direntFor name attrArchive 0⟩ : Live) ∈ listing v l) :
    FileAt v d l ⟨p, reportedName, direntFor name attrArchive 0⟩ [] := by
  have hraw : dirName (direntFor name attrArchive 0) = strToShortname name :=
    dirName_newDirent (length_strToShortname name)
  have hattr : dirAttr (direntFor name attrArchive 0) = attrArchive := dirAttr_newDirent
  refine ⟨⟨h, hd, hl, hmem, ?_, ?_⟩, dirFileSize_newDirent,
    .inl ⟨direntCluster_newDirent (by omega), rfl⟩⟩
  · rw [hattr]
    decide
  · have hhead := head?_strToShortname name
    rw [Live.IsDot, hraw]
    rintro (hdot | hdot)
    · rw [hdot] at hhead
      exact hhead rfl
    · rw [hdot] at hhead
      exact hhead rfl

/-- `create` opens an empty file, if its entry keeps the name. -/
theorem fileOpen_of_create (h : VolumeOk v) (hd : LiveDir v dir.startCluster)
    (hl : v.Chain dir.startCluster l) (hsmall : l.length * v.geo.clusterSize < 2 ^ 32)
    (hdir : dir.isDir = true) (hkept : NameKept (dirSlots v l) name) {frames : ℕ}
    {r : Option Vnode} (hcall : vopCreate frames v dir name = some (v', 0, r)) :
    ∃ l' e, FileOpen dir name ⟨v', r.toList, []⟩ l' e := by
  have ht : DirTarget v dir.startCluster :=
    ⟨hd, fun k hk => by rw [hk.unique hl h.sound]; exact hsmall⟩
  have hmade := h.vopCreate (fun _ => ht) frames name
  rw [hcall] at hmade
  cases hmade with
  | failed _ hrc => exact absurd rfl hrc
  | stored _ _ hk hstored hp hfind hr =>
    obtain rfl := hk.unique hl h.sound
    obtain ⟨l', hl', hfound⟩ := hstored.findName_eq hfind hkept
    obtain ⟨hmem, -⟩ := findName_eq_some hfound
    refine ⟨l', _, hdir, fileAt_direntFor (h.of_geo hstored.intact hstored.geo hstored.hint)
      (hstored.live _ hd) hl' hmem, hfound, hp, fun vp hvp => ?_⟩
    rw [hr rfl] at hvp
    obtain rfl := List.mem_singleton.mp hvp
    have hfile : isDirAttr attrArchive = false := by decide
    exact ⟨hfile, rfl, rfl⟩

theorem overwrite_nil (content : List UInt8) (off : ℕ) : overwrite content off [] = content := by
  simp [overwrite]

/-- Each call keeps the file open. -/
theorem FileOpen.step (h : FileOpen dir name s l e) (op : FileOp) (hop : FileMeets dir name s op) :
    ∃ e', FileOpen dir name (s.step dir name op) l e' := by
  have hsound := h.file.ok.sound
  cases op with
  | lookup frames =>
    refine ⟨e, ?_⟩
    rw [FileRun.step]
    by_cases hframes : frames = 0
    · rw [hframes, vopLookup_zero h.isDir]
      exact ⟨h.isDir, h.file, h.find, h.offset, by simpa using h.vnodes⟩
    · rw [h.file.chain.vopLookup_eq hsound hframes h.isDir, h.find]
      refine ⟨h.isDir, h.file, h.find, h.offset, fun vp hvp => ?_⟩
      rcases List.mem_append.mp hvp with hmem | hmem
      · exact h.vnodes vp hmem
      · simp only [createVnode, Option.mem_toList] at hmem
        split_ifs at hmem with hfew
        cases hmem
        exact ⟨h.file.file, rfl, Nat.mod_eq_of_lt h.offset⟩
  | read frames i nbyte offset => exact ⟨e, h⟩
  | write frames i src nbyte offset =>
    rw [FileRun.step]
    cases hvp : s.vnodes[i]? with
    | none => exact ⟨e, h⟩
    | some vp =>
      have hvnode := h.vnodes vp (List.mem_of_getElem? hvp)
      simp only
      by_cases hzero : nbyte = 0
      · subst hzero
        rw [vopWriteAt, if_neg (by simp [hvnode.file]), if_pos rfl]
        refine ⟨e, h.isDir, ?_, h.find, h.offset, fun vp' hvp' => ?_⟩
        · rw [Bytes.slice_zero, overwrite_nil]
          exact h.file
        · rcases List.mem_or_eq_of_mem_set hvp' with hmem | rfl
          · exact h.vnodes vp' hmem
          · exact hvnode
      · obtain ⟨hframes, hoff, hend, hfresh⟩ := hop.resolve_left hzero
        obtain ⟨hfresh, hfree⟩ := hfresh vp l e hvp h.file.chain h.find
        obtain ⟨v', vp', e', hwrite, hat, hset, hvnode', -, -⟩ := h.file.vopWriteAt_spec hvnode
          hzero hframes hoff hend hfresh hfree src
        rw [hwrite]
        refine ⟨e', h.isDir, hat, hset.findName h.find, by rw [hset.pos]; exact h.offset,
          fun vp'' hvp'' => ?_⟩
        rw [hset.pos]
        rcases List.mem_or_eq_of_mem_set hvp'' with hmem | rfl
        · exact h.vnodes vp'' hmem
        · exact hvnode'

/-- In every run on an open file whose calls go through vnodes that are good for them, a read
returns bytes of the reference string that all writes so far have made, whichever vnodes they
went through. -/
theorem fat32_reads_coherent (dir : Vnode) (name : CStr) (s : FileRun) (l : List ℕ) (e : Live)
    (hopen : FileOpen dir name s l e) (ops : List FileOp)
    (hmeets : Guarded (FileRun.step dir name) (FileMeets dir name) s ops)
    (frames i nbyte offset : ℕ) (vp : Vnode)
    (hread : FileMeets dir name (run (FileRun.step dir name) s ops) (.read frames i nbyte offset))
    (hvp : (run (FileRun.step dir name) s ops).vnodes[i]? = some vp) :
    vopReadAt frames (run (FileRun.step dir name) s ops).volume vp nbyte offset =
      (asInt (min nbyte ((run (FileRun.step dir name) s ops).content.length - offset)),
        ((run (FileRun.step dir name) s ops).content.drop offset).take nbyte) := by
  have hrun : ∃ e, FileOpen dir name (run (FileRun.step dir name) s ops) l e := by
    refine run_invariant (I := fun s => ∃ e, FileOpen dir name s l e) (fun s op hs hop => ?_)
      ⟨e, hopen⟩ hmeets
    obtain ⟨e, hs⟩ := hs
    exact hs.step op hop
  obtain ⟨e', hrun⟩ := hrun
  obtain ⟨hframes, hfresh⟩ := hread
  have hgood := hfresh vp l e' hvp hrun.file.chain hrun.find
  exact hrun.file.vopReadAt_eq hframes hgood.count hgood.start

/-! ## A vnode with an old length -/

/-- The file `A` was made on the empty volume. -/
def createdA : FileRun :=
  match vopCreate 8 emptyVolume (rootVnode smallGeometry) nameA with
  | some (v, _, r) => ⟨v, r.toList, []⟩
  | none => ⟨emptyVolume, [], []⟩

/-- A byte is written through the first vnode, and the file is looked up. -/
def writeLookup : List FileOp := [.write 8 0 (fun _ => 66) 1 0, .lookup 8]

/-- Another byte is appended through the first vnode. -/
def writeLookupWrite : List FileOp := writeLookup ++ [.write 8 0 (fun _ => 66) 1 1]

theorem createdA_open : ∃ l e, FileOpen (rootVnode smallGeometry) nameA createdA l e := by
  have hkept : (strToShortname nameA).head? ≠ some direntFree ∧
      SameName (reportedAs (dirSlots emptyVolume [2]) nameA) nameA := by decide
  have hrc : (vopCreate 8 emptyVolume (rootVnode smallGeometry) nameA).map (fun r => r.2.1) =
      some 0 := by decide
  obtain ⟨⟨v, rc, r⟩, hcall, rfl⟩ := Option.map_eq_some_iff.mp hrc
  have hopen := fileOpen_of_create ⟨smallGeometry_sound, by decide, emptyVolume_intact⟩ .root
    emptyVolume_chain (by decide) rfl ⟨hkept.1, hkept.2⟩ hcall
  rw [createdA, hcall]
  exact hopen

/-- Whatever the vnode and the entry of a call are, they are the ones that evaluation finds. -/
theorem eq_of_find {s : FileRun} {k : List ℕ} (hchain : s.volume.Chain 2 k)
    (hsound : s.volume.geo.Sound) {i c : ℕ} {w : Vnode}
    (hvnode : s.vnodes[i]? = some w)
    (hcluster : (findName name (listing s.volume k)).map Live.cluster = some c)
    (hvp : s.vnodes[i]? = some vp) (hl : s.volume.Chain 2 l)
    (hfind : findName name (listing s.volume l) = some e) : vp = w ∧ e.cluster = c := by
  obtain rfl := hl.unique hchain hsound
  rw [hfind] at hcluster
  exact ⟨Option.some.inj (hvp.symm.trans hvnode), Option.some.inj hcluster⟩

/-- The vnode of a new file is good for a first write. -/
theorem createdA_writeMeets : FileMeets (rootVnode smallGeometry) nameA createdA
    (.write 8 0 (fun _ => 66) 1 0) := by
  refine .inr ⟨by decide, by decide, by decide, fun vp l e hvp hl hfind => ?_⟩
  obtain ⟨rfl, hcluster⟩ := eq_of_find (k := [2]) (c := 0) (w := ⟨0, 0, attrArchive, 2, 0⟩)
    (by decide) smallGeometry_sound (by decide) (by decide) hvp hl hfind
  rw [hcluster]
  exact ⟨⟨.inr ⟨by decide, hcluster⟩, by decide⟩, by decide⟩

/-- The vnode that was looked up after the first write reads what it wrote. -/
theorem fat32_reads_coherent_writeLookup :
    vopReadAt 8 (run (FileRun.step (rootVnode smallGeometry) nameA) createdA writeLookup).volume
      ⟨3, 1, attrArchive, 2, 0⟩ 1 0 = (1, [66]) := by
  obtain ⟨l, e, hopen⟩ := createdA_open
  have hcontent : (run (FileRun.step (rootVnode smallGeometry) nameA) createdA
      writeLookup).content = [66] := by decide
  have hread := fat32_reads_coherent (rootVnode smallGeometry) nameA createdA l e hopen writeLookup
    ⟨createdA_writeMeets, trivial, trivial⟩ 8 1 1 0 ⟨3, 1, attrArchive, 2, 0⟩
    ⟨by decide, fun vp l e hvp hl hfind => ?_⟩ (by decide +kernel)
  · rw [hcontent] at hread
    exact hread
  · obtain ⟨rfl, hcluster⟩ := eq_of_find (k := [2]) (c := 3) (w := ⟨3, 1, attrArchive, 2, 0⟩)
      (by decide +kernel) smallGeometry_sound (by decide +kernel) (by decide +kernel) hvp hl hfind
    exact ⟨by decide, .inl hcluster.symm⟩

/-- A vnode that was looked up before another one appended to the file does not read the new
byte. -/
theorem fat32_read_through_old_vnode :
    (run (FileRun.step (rootVnode smallGeometry) nameA) createdA writeLookupWrite).content =
        [66, 66] ∧
      (run (FileRun.step (rootVnode smallGeometry) nameA) createdA writeLookupWrite).vnodes[1]? =
        some ⟨3, 1, attrArchive, 2, 0⟩ ∧
      vopReadAt 8
        (run (FileRun.step (rootVnode smallGeometry) nameA) createdA writeLookupWrite).volume
        ⟨3, 1, attrArchive, 2, 0⟩ 2 0 = (1, [66]) := by
  refine ⟨by decide +kernel, by decide +kernel, by decide +kernel⟩

end Tomahawk.Fat32
