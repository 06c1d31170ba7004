import Tomahawk.Fat32.Integrity

/-!
# Names in directories

`create` and `mkdir` look for the name they were given, and store an entry under the short name
they make of it. The two agree only when the name that is reported for the new entry is the one
that was given: a name that is too long for its part is cut off, spaces and dots are left out,
and an entry behind left-over long-name slots with its checksum is reported under that long name.
When the names agree, the new entry is found and names stay different.
-/

namespace Tomahawk.Fat32

open Tomahawk.Lib

variable {v v' : Volume} {d p frames : ℕ} {l : List ℕ} {name : CStr} {dir : Vnode} {s : Fs}
  {base ext : List UInt8} {slots : List Bytes} {a b : CStr} {new : List Live} {attr : UInt8}
  {cluster i : ℕ} {rc : ℤ} {r : Option Vnode}

/-- The name under which the entry for a name is reported. -/
def reportedAs (slots : List Bytes) (name : CStr) : CStr :=
  storedName slots (direntFor name attrArchive 0)

/-- The kind and the cluster of the entry do not matter for its name. -/
theorem storedName_direntFor (slots : List Bytes) (name : CStr) (attr : UInt8) (cluster : ℕ) :
    storedName slots (direntFor name attr cluster) = reportedAs slots name := by
  have hname : ∀ attr cluster, dirName (direntFor name attr cluster) = strToShortname name :=
    fun _ _ => dirName_newDirent (length_strToShortname name)
  have hres : ∀ attr cluster, dirNtRes (direntFor name attr cluster) = computeNtRes name :=
    fun _ _ => dirNtRes_newDirent
  rw [reportedAs, storedName, storedName, Lfn.name, Lfn.name, hname, hname, hres, hres]

/-- The entry that is stored for the name in the first free slot is listed, under that name. -/
structure NameKept (slots : List Bytes) (name : CStr) : Prop where
  listed : (strToShortname name).head? ≠ some direntFree
  same : SameName (reportedAs slots name) name

theorem direntFor_ne_direntFree (h : (strToShortname name).head? ≠ some direntFree)
    (attr : UInt8) (cluster : ℕ) : direntFor name attr cluster 0 ≠ direntFree := by
  intro hfree
  rw [head?_strToShortname_eq name attr cluster, hfree] at h
  exact h rfl

/-! ## Names that fit -/

/-- The parts of a name that a short name can hold. -/
structure Fits (base ext : List UInt8) : Prop where
  baseLength : base.length ≤ 8
  extLength : ext.length ≤ 3
  base : ∀ c ∈ base, c ≠ space ∧ c ≠ dot
  ext : ∀ c ∈ ext, c ≠ space ∧ c ≠ dot

/-- A name with an extension, or without one. -/
def joinParts (base ext : List UInt8) : List UInt8 := base ++ if ext = [] then [] else dot :: ext

theorem trimSpaces_padSpaces {n : ℕ} {part : List UInt8} (hn : part.length ≤ n)
    (hpart : ∀ c ∈ part, c ≠ space) : trimSpaces (padSpaces n part) = part := by
  rw [trimSpaces, padSpaces, List.take_of_length_le hn, List.rdropWhile, List.reverse_append,
    List.reverse_replicate, List.dropWhile_append_of_pos (by simp)]
  have hkeep : part.reverse.dropWhile (· == space) = part.reverse := by
    cases hrev : part.reverse with
    | nil => rfl
    | cons c cs =>
      have hc : c ∈ part := List.mem_reverse.mp (hrev ▸ List.mem_cons_self)
      rw [List.dropWhile_cons_of_neg (by simpa using hpart c hc)]
  rw [hkeep, List.reverse_reverse]

theorem parts_joinParts (h : Fits base ext) :
    basePart (joinParts base ext) = base ∧ extPart (joinParts base ext) = ext := by
  have hbase : dot ∉ base := fun hmem => (h.base dot hmem).2 rfl
  unfold basePart extPart joinParts
  by_cases hext : ext = []
  · rw [if_pos hext, List.append_nil, if_neg hbase, if_neg hbase]
    exact ⟨rfl, hext.symm⟩
  · have hpos : ∀ c ∈ ext.reverse, (c != dot) = true := fun c hc => by
      simpa using (h.ext c (List.mem_reverse.mp hc)).2
    have hrev : (base ++ dot :: ext).reverse = ext.reverse ++ dot :: base.reverse := by simp
    rw [if_neg hext, if_pos (by simp), if_pos (by simp), List.rdropWhile, List.rtakeWhile, hrev,
      List.dropWhile_append_of_pos hpos, List.takeWhile_append_of_pos hpos]
    simp

theorem toUpper_ne {c : UInt8} (h : c ≠ space ∧ c ≠ dot) : toUpper c ≠ space ∧ toUpper c ≠ dot := by
  have hall : ∀ c : UInt8, c ≠ space ∧ c ≠ dot → toUpper c ≠ space ∧ toUpper c ≠ dot :=
    forall_uint8 (by decide +kernel)
  exact hall c h

theorem strToShortname_joinParts (h : Fits base ext) (hname : name.bytes = joinParts base ext) :
    strToShortname name = padSpaces 8 (base.map toUpper) ++ padSpaces 3 (ext.map toUpper) := by
  rw [strToShortname, hname, (parts_joinParts h).1, (parts_joinParts h).2,
    List.filter_eq_self.mpr]
  intro c hc
  obtain ⟨b, hb, rfl⟩ := List.mem_map.mp hc
  simpa using toUpper_ne (h.base b hb)

/-- A name that fits is read back from its short name, in the case that the flags give. -/
theorem shortnameToStr_eq (h : Fits base ext) (hname : name.bytes = joinParts base ext)
    (ntRes : UInt8) : shortnameToStr (strToShortname name) ntRes =
      CStr.ofBytes (joinParts ((base.map toUpper).map (lowerIf (ntRes &&& 0x08 != 0)))
        ((ext.map toUpper).map (lowerIf (ntRes &&& 0x10 != 0)))) := by
  have hbase : trimSpaces (padSpaces 8 (base.map toUpper)) = base.map toUpper := by
    refine trimSpaces_padSpaces (by simpa using h.baseLength) fun c hc => ?_
    obtain ⟨b, hb, rfl⟩ := List.mem_map.mp hc
    exact (toUpper_ne (h.base b hb)).1
  have hext : trimSpaces (padSpaces 3 (ext.map toUpper)) = ext.map toUpper := by
    refine trimSpaces_padSpaces (by simpa using h.extLength) fun c hc => ?_
    obtain ⟨b, hb, rfl⟩ := List.mem_map.mp hc
    exact (toUpper_ne (h.ext b hb)).1
  have htake : (padSpaces 3 (ext.map toUpper)).take 3 = padSpaces 3 (ext.map toUpper) :=
    List.take_of_length_le (by rw [length_padSpaces])
  rw [shortnameToStr, strToShortname_joinParts h hname,
    List.take_left' (length_padSpaces 8 _), List.drop_left' (length_padSpaces 8 _), htake, hbase,
    hext, joinParts]
  simp only [List.map_eq_nil_iff]

/-- All letters are small, or all are capitals. -/
def OneCase (part : List UInt8) : Prop :=
  (∀ c ∈ part, ¬ (65 ≤ c ∧ c ≤ 90)) ∨ ∀ c ∈ part, ¬ (97 ≤ c ∧ c ≤ 122)

theorem OneCase.lowerIf_toUpper {part : List UInt8} (h : OneCase part) :
    (part.map toUpper).map (lowerIf (isLowerPart part)) = part := by
  have hall : ∀ (c : UInt8) lower, (lower = true → ¬ (65 ≤ c ∧ c ≤ 90)) →
      (lower = false → ¬ (97 ≤ c ∧ c ≤ 122)) → lowerIf lower (toUpper c) = c :=
    forall_uint8 (by decide +kernel)
  have hiff : isLowerPart part = true ↔
      (∃ c ∈ part, 97 ≤ c ∧ c ≤ 122) ∧ ∀ c ∈ part, ¬ (65 ≤ c ∧ c ≤ 90) := by
    simp [isLowerPart]
  rw [List.map_map]
  refine (List.map_congr_left fun c hc => ?_).trans (List.map_id part)
  refine hall c _ (fun hlower => (hiff.mp hlower).2 c hc) fun hlower hsmall => ?_
  rcases h with h | h
  · simp [hiff.mpr ⟨⟨c, hc, hsmall⟩, h⟩] at hlower
  · exact h c hc hsmall

/-- A name that fits and whose parts have one case each is read back from its short name and the
flags that are computed for it. -/
theorem shortname_roundtrip (base ext : List UInt8) (name : CStr)
    (h : Fits base ext) (hbase : OneCase base) (hext : OneCase ext)
    (hname : name.bytes = joinParts base ext) :
    shortnameToStr (strToShortname name) (computeNtRes name) = name := by
  have hflags : ∀ b e : Bool,
      (((if b then 0x08 else 0) ||| if e then 0x10 else (0 : UInt8)) &&& 0x08 != 0) = b ∧
      (((if b then 0x08 else 0) ||| if e then 0x10 else (0 : UInt8)) &&& 0x10 != 0) = e := by
    decide
  obtain ⟨hb, he⟩ := hflags (isLowerPart base) (isLowerPart ext)
  rw [shortnameToStr_eq h hname, computeNtRes, hname, (parts_joinParts h).1, (parts_joinParts h).2,
    hb, he, hbase.lowerIf_toUpper, hext.lowerIf_toUpper, ← hname, CStr.ofBytes_bytes]

/-- `hello.txt` -/
theorem shortname_roundtrip_hello :
    shortnameToStr (strToShortname ⟨[104, 101, 108, 108, 111, 46, 116, 120, 116], by decide⟩)
      (computeNtRes ⟨[104, 101, 108, 108, 111, 46, 116, 120, 116], by decide⟩) =
        ⟨[104, 101, 108, 108, 111, 46, 116, 120, 116], by decide⟩ :=
  shortname_roundtrip [104, 101, 108, 108, 111] [116, 120, 116] _
    ⟨by decide, by decide, by decide +kernel, by decide +kernel⟩ (.inl (by decide +kernel))
    (.inl (by decide +kernel)) rfl

/-! ## Names stay different -/

/-- No directory lists two entries with the same name. -/
def NamesDistinct (v : Volume) : Prop :=
  ∀ d l, LiveDir v d → v.Chain d l → (listing v l).Pairwise fun e e' => ¬ SameName e.name e'.name

theorem SameName.symm (h : SameName a b) : SameName b a := Eq.symm h

theorem SameName.trans {c : CStr} (h : SameName a b) (h' : SameName b c) : SameName a c :=
  Eq.trans h h'

theorem pairwise_newDirListing (g : Geometry) (parent cluster : ℕ) :
    (newDirListing g parent cluster).Pairwise fun e e' => ¬ SameName e.name e'.name := by
  have hne : ¬ SameName (shortnameToStr dotName 0) (shortnameToStr dotDotName 0) := by decide
  simp [newDirListing, hne]

theorem SameTree.namesDistinct (h : SameTree v v') (hi : Intact v) (hsound : v'.geo.Sound)
    (hnames : NamesDistinct v) : NamesDistinct v' := by
  intro d l hd hl
  have hd' := (h.liveDir d).mp hd
  obtain ⟨k, hk, -⟩ := hi.dirChain hd'
  obtain ⟨k', hk', heq⟩ := h.listing d k hd' hk
  rw [hl.unique hk' hsound, heq]
  exact hnames d k hd' hk

/-- Directories that a step leaves alone keep their names. -/
theorem DirsKept.pairwise (h : DirsKept v v' d new) (hnames : NamesDistinct v)
    (hnew : new.Pairwise fun e e' => ¬ SameName e.name e'.name) {d' : ℕ} {k : List ℕ}
    (hd' : LiveDir v' d') (hk : v'.Chain d' k) (hne : d' ≠ d) :
    (listing v' k).Pairwise fun e e' => ¬ SameName e.name e'.name := by
  rcases h d' k hd' hk hne with ⟨hold, k', hk', heq⟩ | heq
  · rw [heq]
    exact hnames d' k' hold hk'
  · rw [heq]
    exact hnew

/-- A new entry under a name that was not in the directory. -/
theorem Stored.namesDistinct (h : Stored v v' d l (direntFor name attr cluster) p new)
    (hsound : v.geo.Sound) (hd : LiveDir v d) (hl : v.Chain d l)
    (hfind : findName name (listing v l) = none) (hkept : NameKept (dirSlots v l) name)
    (hnames : NamesDistinct v) (hnew : new.Pairwise fun e e' => ¬ SameName e.name e'.name) :
    NamesDistinct v' := by
  intro d' k hd' hk
  by_cases hne : d' = d
  · subst hne
    obtain ⟨l', hl', hfilled⟩ := h.listed (direntFor_ne_direntFree hkept.listed attr cluster)
    obtain ⟨es₁, es₂, heq, heq'⟩ := hfilled.split
    have hold := hnames d' l hd hl
    rw [hk.unique hl' (h.geo ▸ hsound), heq']
    refine (List.pairwise_middle fun {e e'} hne hsame => hne hsame.symm).mpr ?_
    rw [heq] at hold
    refine List.pairwise_cons.mpr ⟨fun e he hsame => ?_, hold⟩
    have hname : SameName e.name name := by
      exact hsame.symm.trans hkept.same
    exact findName_eq_none hfind (heq ▸ he) hname
  · exact h.dirs.pairwise hnames hnew hd' hk hne

theorem Removed.namesDistinct {e : Live} (h : Removed v v' d l e) (hsound : v.geo.Sound)
    (hd : LiveDir v d) (hl : v.Chain d l) (hnames : NamesDistinct v) : NamesDistinct v' := by
  intro d' k hd' hk
  by_cases hne : d' = d
  · subst hne
    obtain ⟨es₁, es₂, heq, heq'⟩ := h.split
    have hold := hnames d' l hd hl
    rw [heq] at hold
    rw [hk.unique h.chain (h.geo ▸ hsound), heq']
    exact hold.sublist (List.Sublist.append_left (List.sublist_cons_self e es₂) es₁)
  · exact h.dirs.pairwise hnames List.Pairwise.nil hd' hk hne

/-! ## The new entry is found -/

/-- Looking the name up in the directory finds the entry of the vnode that was returned. -/
def Finds (v : Volume) (dir : Vnode) (name : CStr) (r : Option Vnode) : Prop :=
  ∀ frames ≥ 3, ∃ vp vp', r = some vp ∧ vopLookup frames v dir name = some (0, some vp') ∧
    vp'.dirCluster = vp.dirCluster ∧ vp'.dirEntryOffset = vp.dirEntryOffset

/-- The new entry is the first one with its name. -/
theorem Stored.findName_eq (h : Stored v v' d l (direntFor name attr cluster) p new)
    (hfind : findName name (listing v l) = none) (hkept : NameKept (dirSlots v l) name) :
    ∃ l', v'.Chain d l' ∧ findName name (listing v' l') =
      some ⟨p, reportedAs (dirSlots v l) name, direntFor name attr cluster⟩ := by
  obtain ⟨l', hl', hfilled⟩ := h.listed (direntFor_ne_direntFree hkept.listed attr cluster)
  obtain ⟨es₁, es₂, heq, heq'⟩ := hfilled.split
  refine ⟨l', hl', ?_⟩
  rw [findName, heq', storedName_direntFor, List.find?_append, List.find?_eq_none.mpr,
    Option.none_or, List.find?_cons_of_pos]
  · simp only [hkept.same, decide_true]
  · intro e he
    have hmem : e ∈ listing v l := by simp [heq, he]
    simpa using findName_eq_none hfind hmem

theorem Stored.finds {vp : Vnode}
    (h : Stored v v' dir.startCluster l (direntFor name attr cluster) p new) (hsound : v.geo.Sound)
    (hdir : dir.isDir = true) (hfind : findName name (listing v l) = none)
    (hkept : NameKept (dirSlots v l) name) (hp : p * 32 < 2 ^ 32)
    (hcluster : vp.dirCluster = dir.startCluster) (hoffset : vp.dirEntryOffset = p * 32) :
    Finds v' dir name (some vp) := by
  intro frames hframes
  obtain ⟨l', hl', hfound⟩ := h.findName_eq hfind hkept
  rw [hl'.vopLookup_eq (h.geo ▸ hsound) (by omega) hdir, hfound]
  refine ⟨vp, _, rfl, congrArg some (congrArg _ (if_neg (by omega))), hcluster.symm, ?_⟩
  rw [hoffset]
  exact Nat.mod_eq_of_lt hp

/-! ## Runs -/

/-- The calls that change names. -/
def FsOp.IsNaming : FsOp → Prop
  | .writeAt _ _ _ _ _ => False
  | _ => True

/-- The call uses a vnode that is up to date, and a new entry keeps its name. -/
def NamingMeets (s : Fs) (op : FsOp) : Prop :=
  FsMeets s op ∧
    match op with
    | .create _ i name | .mkdir _ i name => ∀ dir l, s.vnodes[i]? = some dir → dir.isDir = true →
        s.volume.Chain dir.startCluster l → findName name (listing s.volume l) = none →
          NameKept (dirSlots s.volume l) name
    | _ => True

/-- When the call makes an entry and returns 0, the entry is found. -/
def FindsMade (s : Fs) : FsOp → Prop
  | .create frames i name => ∀ dir v r, s.vnodes[i]? = some dir →
      vopCreate frames s.volume dir name = some (v, 0, r) → Finds v dir name r
  | .mkdir frames i name => ∀ dir v r, s.vnodes[i]? = some dir →
      vopMkdir frames s.volume dir name = some (v, 0, r) → Finds v dir name r
  | _ => True

/-- A call that makes an entry keeps names different, and the entry is found. -/
theorem Making.names {res : Option (Volume × ℤ × Option Vnode)} {u : Volume × ℤ × Option Vnode}
    (h : Making v dir name attr cluster new res) (hok : VolumeOk v) (hnames : NamesDistinct v)
    (hnew : new.Pairwise fun e e' => ¬ SameName e.name e'.name)
    (hkept : ∀ l, dir.isDir = true → v.Chain dir.startCluster l →
      findName name (listing v l) = none → NameKept (dirSlots v l) name) (hres : res = some u) :
    NamesDistinct u.1 ∧ (u.2.1 = 0 → Finds u.1 dir name u.2.2) := by
  cases h with
  | failed hun hrc =>
    cases hres
    exact ⟨hun.sameTree.namesDistinct hok.intact (hun.geo ▸ hok.sound) hnames,
      fun h0 => absurd h0 hrc⟩
  | @stored _ _ _ l _ hdir hd hl hstored hp hfind hr =>
    cases hres
    have hkept := hkept l hdir hl hfind
    refine ⟨hstored.namesDistinct hok.sound hd hl hfind hkept hnames hnew, fun h0 => ?_⟩
    rw [hr h0]
    exact hstored.finds hok.sound hdir hfind hkept hp rfl rfl

theorem Removing.names {res : Option (Volume × ℤ)} {u : Volume × ℤ} (h : Removing v dir res)
    (hok : VolumeOk v) (hnames : NamesDistinct v) (hres : res = some u) : NamesDistinct u.1 := by
  cases h with
  | failed rc =>
    cases hres
    exact hnames
  | removed hd hl hremoved =>
    cases hres
    exact hremoved.namesDistinct hok.sound hd hl hnames

/-- What `create` and `mkdir` do to the names. -/
theorem names_made {u : Volume × ℤ × Option Vnode} (h : VolumeOk s.volume)
    (hnames : NamesDistinct s.volume) (hdir : s.vnodes[i]? = some dir) :
    (NamingMeets s (.create frames i name) → vopCreate frames s.volume dir name = some u →
      NamesDistinct u.1 ∧ (u.2.1 = 0 → Finds u.1 dir name u.2.2)) ∧
    (NamingMeets s (.mkdir frames i name) → vopMkdir frames s.volume dir name = some u →
      NamesDistinct u.1 ∧ (u.2.1 = 0 → Finds u.1 dir name u.2.2)) := by
  constructor
  · rintro ⟨hop, hkept⟩ hcall
    exact (h.vopCreate (hop dir hdir) frames name).names h hnames List.Pairwise.nil
      (fun l => hkept dir l hdir) hcall
  · rintro ⟨hop, hkept⟩ hcall
    obtain ⟨x, hmade⟩ := h.vopMkdir (hop dir hdir) frames name
    exact hmade.names h hnames (pairwise_newDirListing _ _ _) (fun l => hkept dir l hdir) hcall

/-- What the calls keep. -/
structure NamingOk (s : Fs) : Prop where
  ok : VolumeOk s.volume
  names : NamesDistinct s.volume

theorem NamingOk.step (h : NamingOk s) (op : FsOp) (hop : NamingMeets s op) (hkind : op.IsNaming) :
    NamingOk (s.step op) := by
  refine ⟨h.ok.step op hop.1, ?_⟩
  cases op with
  | lookup frames i name => exact Fs.volume_returned h.names fun _ _ _ _ => h.names
  | create frames i name =>
    refine Fs.volume_returned h.names fun dir r hdir hcall => ?_
    exact ((names_made h.ok h.names hdir).1 hop hcall).1
  | mkdir frames i name =>
    refine Fs.volume_returned h.names fun dir r hdir hcall => ?_
    exact ((names_made h.ok h.names hdir).2 hop hcall).1
  | remove frames i name =>
    refine Fs.volume_returned h.names fun dir r hdir hcall => ?_
    exact (h.ok.vopRemove (hop.1 dir hdir) frames).names h.ok h.names hcall
  | writeAt frames i src nbyte offset => exact absurd hkind id

theorem NamingOk.findsMade (h : NamingOk s) (op : FsOp) (hop : NamingMeets s op) :
    FindsMade s op := by
  cases op with
  | create frames i name =>
    intro dir v r hdir hcall
    exact ((names_made h.ok h.names hdir).1 hop hcall).2 rfl
  | mkdir frames i name =>
    intro dir v r hdir hcall
    exact ((names_made h.ok h.names hdir).2 hop hcall).2 rfl
  | lookup frames i name => trivial
  | remove frames i name => trivial
  | writeAt frames i src nbyte offset => trivial

/-- In every run of `create`, `mkdir`, `remove` and `lookup` whose new entries keep their names,
names in a directory are different at every point, and the entry that a call has just made is
found under its name. -/
theorem fat32_names_found (v : Volume) (hsound : v.geo.Sound) (hhint : v.HintOk) (hi : Intact v)
    (hnames : NamesDistinct v) (ops : List FsOp) (hkind : ∀ op ∈ ops, op.IsNaming)
    (hmeets : Guarded Fs.step NamingMeets (Fs.mounted v) ops) :
    NamesDistinct (run Fs.step (Fs.mounted v) ops).volume ∧
      ∀ op, NamingMeets (run Fs.step (Fs.mounted v) ops) op →
        FindsMade (run Fs.step (Fs.mounted v) ops) op := by
  have hstart : NamingOk (Fs.mounted v) := ⟨⟨hsound, hhint, hi⟩, hnames⟩
  have hrun := run_invariant (fun s op hs hop => hs.step op hop.1 hop.2) hstart
    (hmeets.and_forall hkind)
  exact ⟨hrun.names, fun op hop => hrun.findsMade op hop⟩

/-! ## Names that are cut off -/

/-- `"B"` -/
def nameB : CStr := ⟨[66], by decide⟩

theorem emptyVolume_namesDistinct : NamesDistinct emptyVolume := by
  have hempty : (listing emptyVolume [2]).length = 0 := by decide
  intro d l hd hl
  obtain rfl := emptyVolume_liveDir hd
  rw [hl.unique emptyVolume_chain smallGeometry_sound, List.eq_nil_of_length_eq_zero hempty]
  exact List.Pairwise.nil

theorem fat32_names_found_createA :
    let s := run Fs.step (Fs.mounted emptyVolume) [.create 8 0 nameA]
    NamesDistinct s.volume ∧ ∀ op, NamingMeets s op → FindsMade s op := by
  refine fat32_names_found emptyVolume smallGeometry_sound (by decide) emptyVolume_intact
    emptyVolume_namesDistinct [.create 8 0 nameA] (by simp [FsOp.IsNaming])
    ⟨⟨fun dir hdir _ => ?_, fun dir l hdir _ hl _ => ?_⟩, trivial⟩
  · obtain rfl : rootVnode smallGeometry = dir := Option.some.inj hdir
    refine ⟨.root, fun l hl => ?_⟩
    rw [hl.unique emptyVolume_chain smallGeometry_sound]
    decide
  · obtain rfl : rootVnode smallGeometry = dir := Option.some.inj hdir
    have hl2 : l = [2] := hl.unique emptyVolume_chain smallGeometry_sound
    have hkept : (strToShortname nameA).head? ≠ some direntFree ∧
        SameName (reportedAs (dirSlots emptyVolume [2]) nameA) nameA := by decide
    rw [hl2]
    exact ⟨hkept.1, hkept.2⟩

/-- `"AAAAAAAAA"`, one letter too long. -/
def nineA : CStr := ⟨[65, 65, 65, 65, 65, 65, 65, 65, 65], by decide⟩

/-- `"AAAAAAAAB"`, the same but for its last letter. -/
def eightAB : CStr := ⟨[65, 65, 65, 65, 65, 65, 65, 65, 66], by decide⟩

/-- The file that was just made is not found, and a second one gets the same name. -/
theorem fat32_long_names_collide :
    (vopCreate 8 emptyVolume (rootVnode smallGeometry) nineA).map (fun r => r.2.1) = some 0 ∧
      vopLookup 8 (run Fs.step (Fs.mounted emptyVolume) [.create 8 0 nineA]).volume
        (rootVnode smallGeometry) nineA = some (-2, none) ∧
      ¬ NamesDistinct (run Fs.step (Fs.mounted emptyVolume)
        [.create 8 0 nineA, .create 8 0 eightAB]).volume := by
  refine ⟨by decide, by decide, fun hnames => ?_⟩
  have hchain : (run Fs.step (Fs.mounted emptyVolume)
      [.create 8 0 nineA, .create 8 0 eightAB]).volume.Chain 2 [2] := by decide
  have hpair := hnames 2 [2] .root hchain
  revert hpair
  decide

end Tomahawk.Fat32
