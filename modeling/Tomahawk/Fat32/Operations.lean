import Tomahawk.Fat32.Content
import Tomahawk.Fat32.Tree

/-!
# Operations on an intact volume

What `create`, `mkdir`, `remove` and `write_at` do to an intact volume through a vnode that is
up to date: the volume stays intact, and the directory lists one entry more or less. Directories
whose size has 32 bits are meant throughout, since the offsets of entries have no more.
-/

namespace Tomahawk.Fat32

open Function Tomahawk.Lib

variable {v v' : Volume} {c d p x frames : ℕ} {l : List ℕ} {name : CStr} {dir vp : Vnode}
  {attr : UInt8} {cluster : ℕ} {de : Bytes} {e : Live} {l' k ext : List ℕ} {u v'' : Volume}
  {new : List Live}

/-- What every call keeps. -/
structure VolumeOk (v : Volume) : Prop where
  sound : v.geo.Sound
  hint : v.HintOk
  intact : Intact v

theorem VolumeOk.of_geo (h : VolumeOk v) (hi : Intact v') (hgeo : v'.geo = v.geo)
    (hhint : v'.HintOk) : VolumeOk v' := ⟨hgeo ▸ h.sound, hhint, hi⟩

/-- The directory is still there, and its size has 32 bits. -/
structure DirTarget (v : Volume) (d : ℕ) : Prop where
  live : LiveDir v d
  small : ∀ l, v.Chain d l → l.length * v.geo.clusterSize < 2 ^ 32

/-! ## New entries -/

section NewDirent

variable {raw : List UInt8} {attr ntRes : UInt8} {cluster : ℕ}

theorem newDirent_apply {k : ℕ} (hk : k < 20) : newDirent raw attr ntRes cluster k =
    if k < 11 then raw.getD k 0 else if k = 11 then attr else if k = 12 then ntRes else 0 := by
  rw [newDirent, Bytes.putLe_of_lt (by omega), Bytes.putLe_of_lt (by omega)]

theorem direntAt_newDirent :
    direntAt (newDirent raw attr ntRes cluster) 0 = newDirent raw attr ntRes cluster := by
  funext k
  unfold direntAt
  split_ifs with hk
  · rw [Nat.zero_mul, Nat.zero_add]
  · rw [newDirent, Bytes.putLe_of_le (by omega), Bytes.putLe_of_le (by omega), if_neg (by omega),
      if_neg (by omega), if_neg (by omega)]

theorem dirName_newDirent (hraw : raw.length = 11) :
    dirName (newDirent raw attr ntRes cluster) = raw := by
  refine List.ext_getElem (by simp [dirName, hraw]) fun k hk hk' => ?_
  have hlt : k < 11 := by omega
  simp only [dirName, Bytes.slice, List.getElem_map, List.getElem_range, Nat.zero_add]
  rw [newDirent_apply (by omega), if_pos hlt]
  simp [hk']

theorem dirAttr_newDirent : dirAttr (newDirent raw attr ntRes cluster) = attr :=
  newDirent_apply (by omega)

theorem dirNtRes_newDirent : dirNtRes (newDirent raw attr ntRes cluster) = ntRes :=
  newDirent_apply (by omega)

theorem dirFileSize_newDirent : dirFileSize (newDirent raw attr ntRes cluster) = 0 := by
  unfold dirFileSize newDirent
  rfl

theorem direntCluster_newDirent (hcluster : cluster < 2 ^ 32) :
    direntCluster (newDirent raw attr ntRes cluster) = cluster := by
  unfold direntCluster newDirent
  rw [Bytes.le_putLe_of_disjoint (by omega), Bytes.le_putLe, Bytes.le_putLe]
  omega

end NewDirent

/-- The attributes that the driver gives to new entries. -/
structure PlainAttr (attr : UInt8) : Prop where
  notLfn : (attr &&& 0x3F == 0x0F) = false
  notLabel : (attr &&& 0x08 != 0) = false

theorem plainAttr_archive : PlainAttr attrArchive := ⟨rfl, rfl⟩

theorem plainAttr_directory : PlainAttr attrDirectory := ⟨rfl, rfl⟩

/-- The entry that is made for a name. -/
def direntFor (name : CStr) (attr : UInt8) (cluster : ℕ) : Bytes :=
  newDirent (strToShortname name) attr (computeNtRes name) cluster

theorem head?_strToShortname_eq (name : CStr) (attr : UInt8) (cluster : ℕ) :
    (strToShortname name).head? = some (direntFor name attr cluster 0) := by
  have hlength := length_strToShortname name
  have hget : (strToShortname name).getD 0 0 = (strToShortname name)[0] := by simp [hlength]
  rw [direntFor, newDirent_apply (by omega), if_pos (by omega), hget, List.head?_eq_getElem?,
    List.getElem?_eq_getElem]

theorem direntFor_first (name : CStr) (attr : UInt8) (cluster : ℕ) :
    direntFor name attr cluster 0 ≠ 0 := by
  intro hzero
  have hmem := List.mem_of_head? (head?_strToShortname_eq name attr cluster)
  exact zero_notMem_strToShortname name (hzero ▸ hmem)

theorem liveSlot_newDirent {raw : List UInt8} {ntRes : UInt8} (hattr : PlainAttr attr)
    (hend : newDirent raw attr ntRes cluster 0 ≠ 0)
    (hfree : newDirent raw attr ntRes cluster 0 ≠ direntFree) :
    LiveSlot (newDirent raw attr ntRes cluster) := by
  refine ⟨hend, hfree, ?_, ?_⟩
  · exact hattr.notLfn
  · exact hattr.notLabel

theorem liveSlot_direntFor (hattr : PlainAttr attr)
    (hfree : direntFor name attr cluster 0 ≠ direntFree) :
    LiveSlot (direntFor name attr cluster) :=
  liveSlot_newDirent hattr (direntFor_first name attr cluster) hfree

/-- An entry that is listed is not in a free slot. -/
theorem pos_ne_of_free {slots : List Bytes} (hde : slots[p]? = some de)
    (hfree : isFreeSlot de = true) (he : e ∈ reported Lfn.start 0 slots) :
    e.pos ≠ p := by
  rintro rfl
  rw [getElem?_of_mem_reported he] at hde
  obtain ⟨-, -, -, -, -, hlive, -⟩ := mem_reported he
  cases hde
  simp [isFreeSlot, hlive.notEnd, hlive.notFree] at hfree

/-! ## Making room and storing an entry -/

/-- What a directory lists when the tree is as before. -/
theorem SameTree.listed (h : SameTree v v') (hi : Intact v) (hsound : v'.geo.Sound)
    (hd : LiveDir v' d) (hl : v'.Chain d l') :
    LiveDir v d ∧ ∃ l, v.Chain d l ∧ Fat32.listing v' l' = Fat32.listing v l := by
  have hold := (h.liveDir d).mp hd
  obtain ⟨k, hk, -⟩ := hi.dirChain hold
  obtain ⟨k', hk', heq⟩ := h.listing d k hold hk
  obtain rfl := hl.unique hk' hsound
  exact ⟨hold, k, hk, heq⟩

/-- Making room for an entry keeps the volume intact. -/
theorem Intact.room (hi : Intact v) (hsound : v.geo.Sound) (hd : LiveDir v d) (hl : v.Chain d l)
    (hroom : Room v v' d l l' p) : Intact v' ∧ SameTree v v' ∧
      ∀ k, Unowned v k → (∀ y ∈ k, v.fat y ≠ 0) → Unowned v' k := by
  have hsound' : v'.geo.Sound := hroom.keeps.geo ▸ hsound
  obtain ⟨od, hod, -⟩ := hd.owns
  obtain ⟨l₀, hl₀, hne⟩ := hi.chain hod
  obtain rfl := hl.unique hl₀ hsound
  have hne' : l' ≠ [] := by
    obtain ⟨y, ys, rfl⟩ := List.exists_cons_of_ne_nil hne
    intro hnil
    simpa [hnil] using hroom.old y (by simp)
  obtain ⟨hi', hsame, hchain⟩ := hi.keeps hsound hroom.keeps (· = od)
    (fun _ _ h h' => h.trans h'.symm) (fun o' c k hne ho' hk => hi.disjoint ho' hod hne hk hl)
    fun o c k heq ho hk => by
      obtain rfl := (heq ▸ ho).unique hod hsound
      obtain rfl := hk.unique hl hsound
      refine ⟨l', ⟨hroom.chain, hne', fun _ => hroom.listing, fun hd => hroom.tail (hi.tail hd hk)⟩,
        fun y hy => ?_⟩
      rcases hroom.new y hy with hmem | hfree
      · exact .inl hmem
      · exact .inr (.inr hfree)
  refine ⟨hi', hsame, fun k hk hfat o c k' ho hk' => ?_⟩
  by_cases heq : o = od
  · subst heq
    obtain rfl := ((hsame.owns o c).mp ho).unique hod hsound
    obtain rfl := hk'.unique hroom.chain hsound'
    intro y hy hyk
    rcases hroom.new y hy with hmem | hfree
    · exact hk o c l hod hl hmem hyk
    · exact hfat y hyk hfree
  · exact hk o c k' ((hsame.owns o c).mp ho) (hchain o c k' heq ho hk')

/-- The name under which an entry is reported that is stored in the first free slot. -/
def storedName (slots : List Bytes) (de : Bytes) : CStr :=
  ((inUse slots).foldl Lfn.after Lfn.start).name de

/-- The directories other than `d` list what they listed before, but for a new one with the
entries `new`. -/
def DirsKept (v v' : Volume) (d : ℕ) (new : List Live) : Prop :=
  ∀ d' k, LiveDir v' d' → v'.Chain d' k → d' ≠ d →
    (LiveDir v d' ∧ ∃ k', v.Chain d' k' ∧ listing v' k = listing v k') ∨ listing v' k = new

/-- The directory `d`, with the chain `l` before, has the entry `de` in its slot `p` now. An entry
whose name begins with the mark of deleted entries is not listed. -/
structure Stored (v v' : Volume) (d : ℕ) (l : List ℕ) (de : Bytes) (p : ℕ) (new : List Live) :
    Prop where
  intact : Intact v'
  geo : v'.geo = v.geo
  hint : v'.HintOk
  dirs : DirsKept v v' d new
  live : ∀ a, LiveDir v a → LiveDir v' a
  deleted : de 0 = direntFree → ∃ l', v'.Chain d l' ∧ listing v' l' = listing v l
  listed : de 0 ≠ direntFree → ∃ l', v'.Chain d l' ∧
    Filled (listing v l) (listing v' l') p ⟨p, storedName (dirSlots v l) de, de⟩

/-- Storing the entry in the slot that was found. -/
theorem Intact.store (name : CStr) (cluster : ℕ) (hi : Intact v) (hsound : v.geo.Sound)
    (hd : LiveDir v d) (hl : v.Chain d l) (hroom : Room v u d l l' p) (hframes : frames ≠ 0)
    (hattr : PlainAttr attr)
    (hnew : cluster ≠ 0 → ∃ le, u.Chain cluster le ∧ le ≠ [] ∧ Unowned u le ∧
      listing u le = new ∧ (∀ e' ∈ new, e'.IsDot) ∧ ZeroTail (dirSlots u le))
    (hcluster : cluster < 2 ^ 32) :
    ∃ v', writeDirentAt frames u d (p * 32) (direntFor name attr cluster) = some v' ∧
      Stored v v' d l (direntFor name attr cluster) p new := by
  have hgeo := hroom.keeps.geo
  have hsound' : u.geo.Sound := hgeo ▸ hsound
  obtain ⟨hiu, hsame, -⟩ := hi.room hsound hd hl hroom
  obtain ⟨hp, hfree, -⟩ := List.findIdx?_eq_some_iff_getElem.mp hroom.free
  rw [length_dirSlots] at hp
  obtain ⟨v', x, hwrite, hx, ho, hslots⟩ := hroom.chain.patchDirent_eq hsound' hframes
    (slotPatch_store (direntFor name attr cluster)) hp
  have hat : direntAt (direntFor name attr cluster) 0 = direntFor name attr cluster :=
    direntAt_newDirent
  rw [hat] at hslots
  have htail := hroom.tail (hi.tail hd hl)
  have hd' := (hsame.liveDir d).mpr hd
  have hfirst := direntFor_first name attr cluster
  have hcl : ∀ e : Live, e.de = direntFor name attr cluster → e.cluster = cluster := by
    intro e he
    rw [Live.cluster, he]
    exact direntCluster_newDirent hcluster
  -- The entries of the directory before and after.
  have hdeleted : direntFor name attr cluster 0 = direntFree → listing v' l' = listing u l' := by
    intro hdel
    rw [listing, hslots]
    exact reported_fill_deleted hroom.free htail hdel
  have hfilled : direntFor name attr cluster 0 ≠ direntFree →
      Filled (listing u l') (listing v' l') p
        ⟨p, storedName (dirSlots v l) (direntFor name attr cluster),
          direntFor name attr cluster⟩ := by
    intro hdel
    have hfill := reported_fill hroom.free htail (liveSlot_direntFor hattr hdel)
    rw [hroom.before, ← hslots] at hfill
    exact hfill
  have hfresh : ∀ e ∈ listing u l', e.pos ≠ p := fun e =>
    pos_ne_of_free (List.getElem?_eq_getElem _) hfree
  have hpatched : Patched u v' d p fun e => e.de = direntFor name attr cluster := by
    refine hiu.patch hsound' hd' hroom.chain hx ho _ (fun e he => ?_) ?_ fun e he hdot hc => ?_
    · by_cases hdel : direntFor name attr cluster 0 = direntFree
      · rw [hdeleted hdel] at he
        exact .inl ⟨he, hfresh e he⟩
      · rcases (hfilled hdel).mem_iff.mp he with hold | rfl
        · exact .inl ⟨hold, hfresh e hold⟩
        · exact .inr ⟨rfl, rfl⟩
    · rw [hslots]
      exact htail.fill hroom.free hfirst
    · rw [hcl e he] at hc
      obtain ⟨le, hle, hne, hun, rfl, hdots, hzero⟩ := hnew hc
      exact ⟨le, by rw [hcl e he]; exact hle, hne, fun o c k _ => hun o c k,
        fun _ => ⟨hdots, hzero⟩⟩
  refine ⟨v', hwrite, hpatched.intact, ho.geo.trans hgeo, ho.hintOk hroom.keeps.hint,
    fun d' k hlive hk hne => ?_, fun a ha => ?_,
    fun hdel => ⟨l', hroom.chain.onlyCluster ho, ?_⟩,
    fun hdel => ⟨l', hroom.chain.onlyCluster ho, ?_⟩⟩
  · obtain ⟨hku, hlisting, hold | ⟨e, he, hsub, rfl⟩⟩ := hpatched.dirs d' k hlive hk hne
    · obtain ⟨hold', k', hk', heq⟩ := hsame.listed hi hsound' hold hku
      exact .inl ⟨hold', k', hk', hlisting.trans heq⟩
    · have hc := hsub.cluster
      rw [hcl e he] at hc hku
      obtain ⟨le, hle, -, -, hnew', -⟩ := hnew hc
      obtain rfl := hku.unique hle hsound'
      exact .inr (hlisting.trans hnew')
  · refine ((hsame.liveDir a).mpr ha).patch hiu hsound' hd' hroom.chain hx ho fun e he _ => ?_
    by_cases hdel : direntFor name attr cluster 0 = direntFree
    · rw [hdeleted hdel]
      exact he
    · exact (hfilled hdel).mem_iff.mpr (.inl he)
  · rw [hdeleted hdel, hroom.listing]
  · rw [← hroom.listing]
    exact hfilled hdel

/-! ## Creating -/

/-- Looking up a name finds the first entry with it. -/
theorem Volume.Chain.vopLookup_eq (h : v.Chain dir.startCluster l) (hsound : v.geo.Sound)
    (hframes : frames ≠ 0) (hdir : dir.isDir = true) (name : CStr) :
    vopLookup frames v dir name = some (match findName name (listing v l) with
      | none => (-2, none)
      | some e => (0, createVnode (frames - 1) (lookupVnode v dir.startCluster e.entry))) := by
  rw [vopLookup, if_neg (by simp [hdir]), h.iterateDir_name hsound hframes]
  cases findName name (listing v l) with
  | none => rfl
  | some e => rfl

/-- Without a frame for the directory nothing is found. -/
theorem vopLookup_zero (hdir : dir.isDir = true) (name : CStr) :
    vopLookup 0 v dir name = some (-1, none) := by
  rw [vopLookup, if_neg (by simp [hdir]), iterateDir, if_pos rfl]
  rfl

/-- The tree is as before. -/
structure Untouched (v v' : Volume) : Prop where
  intact : Intact v'
  sameTree : SameTree v v'
  geo : v'.geo = v.geo
  hint : v'.HintOk

theorem SameTree.refl (v : Volume) : SameTree v v :=
  ⟨fun _ => Iff.rfl, fun _ _ => Iff.rfl, fun _ l _ hl => ⟨l, hl, rfl⟩⟩

theorem SameTree.trans (h : SameTree v v') (h' : SameTree v' v'') :
    SameTree v v'' := by
  refine ⟨fun d => (h'.liveDir d).trans (h.liveDir d), fun o c => (h'.owns o c).trans (h.owns o c),
    fun d l hd hl => ?_⟩
  obtain ⟨l', hl', heq⟩ := h.listing d l hd hl
  obtain ⟨l'', hl'', heq'⟩ := h'.listing d l' ((h.liveDir d).mpr hd) hl'
  exact ⟨l'', hl'', heq'.trans heq⟩

theorem Untouched.refl (hi : Intact v) (hhint : v.HintOk) : Untouched v v :=
  ⟨hi, .refl v, rfl, hhint⟩

/-- Offsets of slots in a directory whose size has 32 bits. -/
theorem Room.offset_lt (hroom : Room v v' d l l' p) (hsound : v.geo.Sound)
    (hsmall : l.length * v.geo.clusterSize < 2 ^ 32) : p * 32 < 2 ^ 32 := by
  have hbound := hroom.bound
  rw [hsound.clusterSize_eq, ← Nat.mul_assoc] at hsmall
  omega

/-- What a call that makes an entry of the directory returns: the entry is stored, or the call
fails and the tree is as before. -/
inductive Making (v : Volume) (dir : Vnode) (name : CStr) (attr : UInt8) (cluster : ℕ)
    (new : List Live) : Option (Volume × ℤ × Option Vnode) → Prop
  | failed {v' : Volume} {rc : ℤ} {r : Option Vnode} (hun : Untouched v v') (hrc : rc ≠ 0) :
      Making v dir name attr cluster new (some (v', rc, r))
  | stored {v' : Volume} {rc : ℤ} {r : Option Vnode} {l : List ℕ} {p : ℕ}
      (hdir : dir.isDir = true) (hd : LiveDir v dir.startCluster)
      (hl : v.Chain dir.startCluster l)
      (hstored : Stored v v' dir.startCluster l (direntFor name attr cluster) p new)
      (hp : p * 32 < 2 ^ 32) (hfind : findName name (listing v l) = none)
      (hr : rc = 0 → r = some ⟨cluster, 0, attr, dir.startCluster, p * 32⟩) :
      Making v dir name attr cluster new (some (v', rc, r))

/-- The entry is stored, and a vnode is made if there are frames for it. -/
theorem Stored.making (h : Stored v v' dir.startCluster l (direntFor name attr cluster) p new)
    (hdir : dir.isDir = true) (hd : LiveDir v dir.startCluster) (hl : v.Chain dir.startCluster l)
    (hp : p * 32 < 2 ^ 32) (hfind : findName name (listing v l) = none) (frames : ℕ) :
    Making v dir name attr cluster new
      (match createVnode frames ⟨cluster, 0, attr, dir.startCluster, p * 32⟩ with
      | none => some (v', -1, none)
      | some vp => some (v', 0, some vp)) := by
  unfold createVnode
  split_ifs
  · exact .stored hdir hd hl h hp hfind fun hrc => absurd hrc (by decide)
  · exact .stored hdir hd hl h hp hfind fun _ => rfl

/-- `create` stores an entry without clusters. -/
theorem VolumeOk.vopCreate (h : VolumeOk v)
    (ht : dir.isDir = true → DirTarget v dir.startCluster) (frames : ℕ) (name : CStr) :
    Making v dir name attrArchive 0 [] (Fat32.vopCreate frames v dir name) := by
  have hun := Untouched.refl h.intact h.hint
  rw [Fat32.vopCreate]
  by_cases hdir : dir.isDir = true
  swap
  · rw [if_pos hdir]
    exact .failed hun (by decide)
  rw [if_neg (not_not.mpr hdir)]
  obtain ⟨hd, hsmall⟩ := ht hdir
  obtain ⟨l, hl, hne⟩ := h.intact.dirChain hd
  by_cases hframes : frames = 0
  · subst hframes
    rw [vopLookup_zero hdir]
    exact .failed hun (by decide)
  rw [hl.vopLookup_eq h.sound hframes hdir]
  cases hfind : findName name (listing v l) with
  | some e => exact .failed hun (by decide)
  | none =>
    rcases hl.findFreeDirent_cases hne h.sound h.hint hframes with hfull | ⟨u, l', p, heq, hroom⟩
    · rw [hfull]
      exact .failed hun (by decide)
    · have hlt := hroom.offset_lt h.sound (hsmall l hl)
      rw [heq, Nat.mod_eq_of_lt hlt]
      obtain ⟨v', hwrite, hstored⟩ := h.intact.store name 0 h.sound hd hl hroom hframes
        plainAttr_archive (fun h => absurd rfl h) (by omega)
      rw [direntFor] at hwrite
      simp only [hwrite]
      exact hstored.making hdir hd hl hlt hfind frames

/-! ## Making a directory -/

/-- The entry of a new directory for itself. -/
def selfEntry (cluster : ℕ) : Bytes := newDirent dotName attrDirectory 0 cluster

/-- The entry of a new directory for its parent. -/
def parentEntry (g : Geometry) (parent : ℕ) : Bytes :=
  newDirent dotDotName attrDirectory 0 (if parent = g.rootCluster then 0 else parent)

/-- What a new directory lists. -/
def newDirListing (g : Geometry) (parent cluster : ℕ) : List Live :=
  [⟨0, shortnameToStr dotName 0, selfEntry cluster⟩,
    ⟨1, shortnameToStr dotDotName 0, parentEntry g parent⟩]

theorem dirName_selfEntry (cluster : ℕ) : dirName (selfEntry cluster) = dotName :=
  dirName_newDirent (by decide)

theorem dirName_parentEntry (g : Geometry) (parent : ℕ) :
    dirName (parentEntry g parent) = dotDotName := dirName_newDirent (by decide)

theorem isDot_of_mem_newDirListing {g : Geometry} {parent : ℕ}
    (h : e ∈ newDirListing g parent cluster) : e.IsDot := by
  rcases List.mem_cons.mp h with rfl | h
  · exact .inl (dirName_selfEntry cluster)
  · obtain rfl := List.mem_singleton.mp h
    exact .inr (dirName_parentEntry g parent)

/-- A new entry in another slot leaves a slot as it is. -/
theorem direntAt_storeDirent_of_ne (de buf : Bytes) {i j : ℕ} (h : i ≠ j) :
    direntAt (storeDirent de (i * 32) buf) j = direntAt buf j := by
  funext k
  unfold direntAt
  split_ifs with hk
  · exact (slotPatch_store de).outside (i * 32) buf _ (by omega)
  · rfl

theorem dirSlots_newDir (hsound : v.geo.Sound) (hx : v.geo.IsData x) (parent : ℕ) :
    dirSlots (v.putCluster x (newDirCluster v.geo parent x)) [x] =
      [selfEntry x, parentEntry v.geo parent] ++ blankSlots (v.geo.perCluster - 2) := by
  have hsize := hsound.clusterSize_eq
  have htwo := hsound.twoSlots
  obtain ⟨n, hn⟩ : ∃ n, v.geo.perCluster = n + 2 := ⟨v.geo.perCluster - 2, by omega⟩
  have hself := (slotPatch_store (selfEntry x)).slot 0 fun _ => 0
  have hzero : ∀ i, direntAt (fun _ => 0) i = fun _ => 0 := fun i => by
    funext k
    simp [direntAt]
  -- The slots of the buffer.
  have hslot : ∀ i, direntAt (newDirCluster v.geo parent x) i =
      if i = 0 then selfEntry x else if i = 1 then parentEntry v.geo parent else fun _ => 0 := by
    intro i
    have hdef : newDirCluster v.geo parent x = storeDirent (parentEntry v.geo parent) (1 * 32)
        (storeDirent (selfEntry x) (0 * 32) fun _ => 0) := rfl
    rw [hdef]
    split_ifs with h0 h1
    · subst h0
      rw [direntAt_storeDirent_of_ne _ _ (by omega), hself]
      exact direntAt_newDirent
    · subst h1
      rw [(slotPatch_store (parentEntry v.geo parent)).slot 1]
      exact direntAt_newDirent
    · rw [direntAt_storeDirent_of_ne _ _ (by omega), direntAt_storeDirent_of_ne _ _ (by omega),
        hzero]
  have hdata : ∀ i < v.geo.perCluster,
      direntAt ((v.putCluster x (newDirCluster v.geo parent x)).data x) i =
        direntAt (newDirCluster v.geo parent x) i := by
    intro i hi
    funext k
    unfold direntAt
    split_ifs with hk
    · rw [data_putCluster hx, update_self]
      exact if_pos (by omega)
    · rfl
  rw [dirSlots_singleton, clusterSlots, putCluster_geo,
    List.map_congr_left fun i hi => (hdata i (List.mem_range.mp hi)).trans (hslot i), hn,
    List.range_succ_eq_map, List.range_succ_eq_map, blankSlots]
  simp [comp_def, List.map_const']

/-- The entries of a new directory are reported. -/
theorem liveSlot_dotEntry {raw : List UInt8} (hraw : raw ∈ [dotName, dotDotName]) (cluster : ℕ) :
    LiveSlot (newDirent raw attrDirectory 0 cluster) := by
  have hfirst : newDirent raw attrDirectory 0 cluster 0 = dot := by
    rw [newDirent_apply (by omega), if_pos (by omega)]
    revert raw
    decide
  exact liveSlot_newDirent plainAttr_directory (by rw [hfirst]; decide) (by rw [hfirst]; decide)

/-- A new directory lists itself and its parent. -/
theorem listing_newDir (hsound : v.geo.Sound) (hx : v.geo.IsData x) (parent : ℕ) :
    listing (v.putCluster x (newDirCluster v.geo parent x)) [x] =
        newDirListing v.geo parent x ∧
      ZeroTail (dirSlots (v.putCluster x (newDirCluster v.geo parent x)) [x]) := by
  have hself : LiveSlot (selfEntry x) := liveSlot_dotEntry (by simp) x
  have hup : LiveSlot (parentEntry v.geo parent) := liveSlot_dotEntry (by simp) _
  have hfull : [selfEntry x, parentEntry v.geo parent].findIdx? isFreeSlot = none := by
    refine List.findIdx?_eq_none_iff.mpr fun d hd => ?_
    have hd' : LiveSlot d := by
      rcases List.mem_cons.mp hd with rfl | hd
      · exact hself
      · rw [List.mem_singleton.mp hd]
        exact hup
    simp [isFreeSlot, hd'.notEnd, hd'.notFree]
  constructor
  · rw [listing, dirSlots_newDir hsound hx, reported_blank hfull, reported_live hself,
      reported_live hup, newDirListing]
    have hnt : ∀ raw cluster, dirNtRes (newDirent raw attrDirectory 0 cluster) = 0 :=
      fun _ _ => dirNtRes_newDirent
    simp [Lfn.name, Lfn.start, Lfn.off, dirName_selfEntry, dirName_parentEntry, reported]
    exact ⟨congrArg _ (hnt _ _), congrArg _ (hnt _ _)⟩
  · rw [dirSlots_newDir hsound hx]
    exact zeroTail_blank hfull

/-- A step that touches no chain of an owner leaves the tree as it is. -/
theorem Intact.untouched {t : List ℕ} (hi : Intact v) (hsound : v.geo.Sound) (hk : Keeps v v' t)
    (hun : Unowned v t) : Untouched v v' ∧ ∀ k, Unowned v k → Unowned v' k := by
  obtain ⟨hi', hsame, hchain⟩ := hi.keeps_apart hsound hk hun
  refine ⟨⟨hi', hsame, hk.geo, hk.hint⟩, fun k hk o c l ho hl => ?_⟩
  exact hk o c l ((hsame.owns o c).mp ho) (hchain o c l ho hl)

theorem Untouched.trans (h : Untouched v v') (h' : Untouched v' v'') :
    Untouched v v'' :=
  ⟨h'.intact, h.sameTree.trans h'.sameTree, h'.geo.trans h.geo, h'.hint⟩

/-- Freeing a chain that belongs to nothing. -/
theorem Intact.freeUnowned (hi : Intact v) (hsound : v.geo.Sound) (hhint : v.HintOk)
    (hk : v.Chain c k) (hun : Unowned v k) : Untouched v (freeChain v c) :=
  (hi.untouched hsound ((hk.freed hsound).keeps hhint) hun).1

theorem unowned_nil (v : Volume) : Unowned v [] := fun _ _ _ _ _ => List.disjoint_nil_right _

/-- A cluster that was free belongs to nothing. -/
theorem Intact.unowned_of_free (hi : Intact v) (hsound : v.geo.Sound) (hk : Keeps v v' [])
    (hx : v.fat x = 0) : Unowned v' [x] := by
  obtain ⟨-, -, hchain⟩ := hi.keeps_apart hsound hk (unowned_nil v)
  intro o c l ho hl y hy hyx
  rw [List.mem_singleton.mp hyx] at hy
  exact (hchain o c l ho hl).fat_ne_zero hy hx

theorem Stored.of_untouched (h : Stored u v' d l de p new) (hu : Untouched v u) (hi : Intact v)
    (hsound : v.geo.Sound) (hslots : dirSlots u l = dirSlots v l) : Stored v v' d l de p new := by
  have hlisting : listing u l = listing v l := by
    rw [listing, hslots]
    rfl
  refine ⟨h.intact, h.geo.trans hu.geo, h.hint, fun d' k hd' hk hne => ?_,
    fun a ha => h.live a ((hu.sameTree.liveDir a).mpr ha), fun hdel => ?_, fun hdel => ?_⟩
  · rcases h.dirs d' k hd' hk hne with ⟨hold, k', hk', heq⟩ | hnew
    · obtain ⟨hold', k₀, hk₀, heq₀⟩ := hu.sameTree.listed hi (hu.geo ▸ hsound) hold hk'
      exact .inl ⟨hold', k₀, hk₀, heq.trans heq₀⟩
    · exact .inr hnew
  · rw [← hlisting]
    exact h.deleted hdel
  · rw [← hlisting, ← hslots]
    exact h.listed hdel

/-- `mkdir` stores the entry of a new directory. -/
theorem VolumeOk.vopMkdir (h : VolumeOk v)
    (ht : dir.isDir = true → DirTarget v dir.startCluster) (frames : ℕ) (name : CStr) :
    ∃ x, Making v dir name attrDirectory x (newDirListing v.geo dir.startCluster x)
      (Fat32.vopMkdir frames v dir name) := by
  obtain ⟨hsound, hhint, hi⟩ := h
  have hun₀ := Untouched.refl hi hhint
  rw [Fat32.vopMkdir]
  by_cases hdir : dir.isDir = true
  swap
  · rw [if_pos hdir]
    exact ⟨0, .failed hun₀ (by decide)⟩
  rw [if_neg (not_not.mpr hdir)]
  obtain ⟨hd, hsmall⟩ := ht hdir
  obtain ⟨l, hl, hne⟩ := hi.dirChain hd
  by_cases hframes : frames = 0
  · subst hframes
    rw [vopLookup_zero hdir]
    rcases allocCluster_cases hsound hhint with ⟨heq, -⟩ | ⟨w, x, heq, hx0, ha⟩
    · rw [heq]
      exact ⟨0, .failed hun₀ (by decide)⟩
    · simp only [heq, if_neg hx0]
      obtain ⟨hun, -⟩ := hi.untouched hsound ha.keeps (unowned_nil v)
      have hfreed := hun.intact.freeUnowned (hun.geo ▸ hsound) hun.hint ha.chain
        (hi.unowned_of_free hsound ha.keeps ha.free)
      exact ⟨0, .failed (hun.trans hfreed) (by decide)⟩
  rw [hl.vopLookup_eq hsound hframes hdir]
  cases hfind : findName name (listing v l) with
  | some e => exact ⟨0, .failed hun₀ (by decide)⟩
  | none =>
    simp only [if_neg (show ¬ (-2 : ℤ) = 0 by decide), if_neg hframes]
    rcases allocCluster_cases hsound hhint with ⟨heq, -⟩ | ⟨w, y, heq, hy0, ha⟩
    · rw [heq]
      exact ⟨0, .failed hun₀ (by decide)⟩
    rw [heq, if_neg hy0]
    have hwgeo : w.geo = v.geo := ha.geo
    have hwsound : w.geo.Sound := hwgeo ▸ hsound
    have hydata : w.geo.IsData y := hwgeo ▸ ha.isData
    -- The volume with the clusters of the new directory, which nothing refers to yet.
    have ho := onlyCluster_putCluster hwsound hydata (newDirCluster w.geo dir.startCluster y)
    have hnewDir := listing_newDir hwsound hydata dir.startCluster
    simp only
    rw [← hwgeo, writeCluster_eq hydata]
    have hychain : (w.putCluster y (newDirCluster w.geo dir.startCluster y)).Chain y [y] :=
      ha.chain.onlyCluster ho
    simp only
    generalize w.putCluster y (newDirCluster w.geo dir.startCluster y) = u at ho hnewDir hychain ⊢
    have hkeeps : Keeps v u [] := ha.keeps.trans (ho.keeps ha.hint) fun z hz => by
      rw [List.mem_singleton.mp hz]
      exact .inr ha.free
    obtain ⟨hun, -⟩ := hi.untouched hsound hkeeps (unowned_nil v)
    have hyun : Unowned u [y] := hi.unowned_of_free hsound hkeeps ha.free
    have husound : u.geo.Sound := hun.geo ▸ hsound
    obtain ⟨hul, hudata⟩ := hkeeps.chain _ l hl (List.disjoint_nil_right _)
    have hslots : dirSlots u l = dirSlots v l := dirSlots_congr hkeeps.geo hudata
    have hud := (hun.sameTree.liveDir _).mpr hd
    rcases hul.findFreeDirent_cases hne husound hun.hint hframes with
      hfull | ⟨u', l', p, heq, hroom⟩
    · rw [hfull]
      have hfreed := hun.intact.freeUnowned husound hun.hint hychain hyun
      exact ⟨0, .failed (hun.trans hfreed) (by decide)⟩
    · have hlt := hroom.offset_lt husound (by rw [hun.geo]; exact hsmall l hl)
      rw [heq, Nat.mod_eq_of_lt hlt]
      obtain ⟨od, hod, -⟩ := hud.owns
      obtain ⟨-, -, hunowned⟩ := hun.intact.room husound hud hul hroom
      obtain ⟨hychain', hydata'⟩ := hroom.keeps.chain y [y] hychain
        (hyun od _ l hod hul).symm
      have hyslots : dirSlots u' [y] = dirSlots u [y] := dirSlots_congr hroom.keeps.geo hydata'
      have hylt := hsound.lt_of_isData ha.isData
      have hnew : ∃ le, u'.Chain y le ∧ le ≠ [] ∧ Unowned u' le ∧
          listing u' le = newDirListing w.geo dir.startCluster y ∧
          (∀ e ∈ newDirListing w.geo dir.startCluster y, e.IsDot) ∧
          ZeroTail (dirSlots u' le) := by
        refine ⟨[y], hychain', by simp, hunowned [y] hyun fun z hz => hychain.fat_ne_zero hz, ?_,
          fun e he => isDot_of_mem_newDirListing he, ?_⟩
        · rw [listing, hyslots]
          exact hnewDir.1
        · rw [hyslots]
          exact hnewDir.2
      obtain ⟨v', hwrite, hstored⟩ := hun.intact.store name y husound hud hul hroom hframes
        plainAttr_directory (fun _ => hnew) hylt
      rw [direntFor] at hwrite
      simp only [hwrite]
      exact ⟨y, (hstored.of_untouched hun hi hsound hslots).making hdir hd hl hlt hfind frames⟩

/-! ## Removing -/

/-- The entry `e` of the directory `d` is gone, and its chain is free. -/
structure Removed (v v' : Volume) (d : ℕ) (l : List ℕ) (e : Live) : Prop where
  intact : Intact v'
  geo : v'.geo = v.geo
  hint : v'.HintOk
  dirs : DirsKept v v' d []
  chain : v'.Chain d l
  split : ∃ es₁ es₂, listing v l = es₁ ++ e :: es₂ ∧ listing v' l = es₁ ++ es₂

/-- Deleting an entry. -/
theorem Intact.delete (hi : Intact v) (hsound : v.geo.Sound) (hhint : v.HintOk) (hd : LiveDir v d)
    (hl : v.Chain d l) (hsmall : l.length * v.geo.clusterSize < 2 ^ 32) (he : e ∈ listing v l)
    (hdot : ¬ e.IsDot) (hframes : frames ≠ 0) :
    ∃ u, patchDirent frames v d e.entry.offset
        (fun off buf => update buf off direntFree) = some u ∧
      Removed v (if 2 ≤ e.cluster then freeChain u e.cluster else u) d l e := by
  have hpos := pos_of_mem_reported he
  rw [length_dirSlots, Nat.zero_add] at hpos
  have hoffset : e.entry.offset = e.pos * 32 := by
    refine Nat.mod_eq_of_lt ?_
    rw [hsound.clusterSize_eq, ← Nat.mul_assoc] at hsmall
    omega
  obtain ⟨u, x, hpatch, hx, ho, hslots⟩ := hl.patchDirent_eq hsound hframes slotPatch_free hpos.2
  obtain ⟨es₁, es₂, hlist, hlist', hother⟩ := reported_delete he
  rw [← hslots] at hlist'
  have hpatched : Patched v u d e.pos fun _ => False := by
    refine hi.patch hsound hd hl hx ho _ (fun e' he' => ?_) ?_ fun _ h => absurd h id
    · have hmem : e' ∈ es₁ ++ es₂ := hlist' ▸ he'
      refine .inl ⟨?_, hother e' hmem⟩
      rw [listing, hlist]
      simp only [List.mem_append, List.mem_cons] at hmem ⊢
      rcases hmem with h | h
      · exact .inl h
      · exact .inr (.inr h)
    · rw [hslots]
      exact (hi.tail hd hl).delete
  have hdirs : DirsKept v u d [] := by
    intro d' k hd' hk hne
    obtain ⟨hkv, hlisting, hold | ⟨-, h, -⟩⟩ := hpatched.dirs d' k hd' hk hne
    · exact .inl ⟨hold, k, hkv, hlisting⟩
    · exact absurd h id
  refine ⟨u, by rw [hoffset]; exact hpatch, ?_⟩
  by_cases hc : 2 ≤ e.cluster
  · rw [if_pos hc]
    -- The chain belongs to the entry that was deleted, so it belongs to nothing now.
    have howns : Owns v (.entry d e.pos) e.cluster := .entry hd hl he hdot (by omega)
    obtain ⟨le, hle, -⟩ := hi.chain howns
    have hleu := hle.onlyCluster ho
    have husound : u.geo.Sound := ho.geo ▸ hsound
    have hun : Unowned u le := by
      intro o c k hoc hk
      rcases hpatched.owns o c hoc with ⟨hold, hne⟩ | ⟨-, -, h, -⟩
      · exact hi.disjoint hold howns hne (Volume.Chain.of_onlyCluster hk ho) hle
      · exact absurd h id
    have hfreed := hleu.freed husound
    have hfree := hpatched.intact.freeUnowned husound (ho.hintOk hhint) hleu hun
    obtain ⟨od, hod, hodne⟩ := hd.owns
    have hdisj : l.Disjoint le := hi.disjoint hod howns (hodne e.pos) hl hle
    refine ⟨hfree.intact, hfree.geo.trans ho.geo, hfree.hint, fun d' k hd' hk hne => ?_,
      (hl.onlyCluster ho).freed_other hfreed hdisj, es₁, es₂, hlist, ?_⟩
    · obtain ⟨hd'u, k', hk', heq⟩ := hfree.sameTree.listed hpatched.intact
        (hfree.geo ▸ husound) hd' hk
      rcases hdirs d' k' hd'u hk' hne with ⟨hold, k₀, hk₀, heq₀⟩ | hnil
      · exact .inl ⟨hold, k₀, hk₀, heq.trans heq₀⟩
      · exact .inr (heq.trans hnil)
    · rw [listing, dirSlots_congr hfreed.geo fun y _ => by rw [hfreed.data], hlist']
  · rw [if_neg hc]
    exact ⟨hpatched.intact, ho.geo, ho.hintOk hhint, hdirs, hl.onlyCluster ho, es₁, es₂, hlist,
      hlist'⟩

/-- What `remove` returns: an entry of the directory is gone, or nothing has changed. -/
inductive Removing (v : Volume) (dir : Vnode) : Option (Volume × ℤ) → Prop
  | failed (rc : ℤ) : Removing v dir (some (v, rc))
  | removed {v' : Volume} {rc : ℤ} {l : List ℕ} {e : Live} (hd : LiveDir v dir.startCluster)
      (hl : v.Chain dir.startCluster l) (h : Removed v v' dir.startCluster l e) :
      Removing v dir (some (v', rc))

/-- `remove` deletes the entry with the name. -/
theorem VolumeOk.vopRemove (h : VolumeOk v)
    (ht : dir.isDir = true → DirTarget v dir.startCluster ∧ ∀ l e, v.Chain dir.startCluster l →
      findName name (listing v l) = some e → ¬ e.IsDot) (frames : ℕ) :
    Removing v dir (Fat32.vopRemove frames v dir name) := by
  rw [Fat32.vopRemove]
  by_cases hdir : dir.isDir = true
  swap
  · rw [if_pos hdir]
    exact .failed _
  rw [if_neg (not_not.mpr hdir)]
  obtain ⟨⟨hd, hsmall⟩, hdot⟩ := ht hdir
  obtain ⟨l, hl, -⟩ := h.intact.dirChain hd
  by_cases hframes : frames = 0
  · rw [iterateDir, if_pos hframes]
    exact .failed _
  rw [hl.iterateDir_name h.sound hframes]
  cases hfind : findName name (listing v l) with
  | none => exact .failed _
  | some e =>
    obtain ⟨he, -⟩ := findName_eq_some hfind
    have hdot' := hdot l e hl hfind
    have hempty : ∃ b, (if isDirAttr (dirAttr e.entry.de) ∧ 2 ≤ direntCluster e.entry.de then
        dirIsEmpty frames v (direntCluster e.entry.de) else some true) = some b := by
      split_ifs with hsub
      · have hc : e.cluster ≠ 0 := by
          have : 2 ≤ e.cluster := hsub.2
          omega
        obtain ⟨k, hk, -⟩ := h.intact.chain (.entry hd hl he hdot' hc)
        have hk' : v.Chain (direntCluster e.entry.de) k := hk
        rw [dirIsEmpty, hk'.iterateDir_eq h.sound hframes]
        exact ⟨_, rfl⟩
      · exact ⟨true, rfl⟩
    obtain ⟨b, hb⟩ := hempty
    simp only [Option.map_some, hb]
    cases b with
    | false => exact .failed _
    | true =>
      obtain ⟨u, hpatch, hremoved⟩ := h.intact.delete h.sound h.hint hd hl (hsmall l hl) he hdot'
        hframes
      simp only [hpatch]
      exact .removed hd hl hremoved

/-! ## Writing -/

/-- The slot holds the entry of a file, or it is free. -/
def FileSlot (slots : List Bytes) (p : ℕ) : Prop :=
  (∃ e ∈ reported Lfn.start 0 slots, e.pos = p ∧ isDirAttr (dirAttr e.de) = false) ∨
    ∃ de, slots[p]? = some de ∧ isFreeSlot de = true

/-- The vnode is up to date enough for a write: its slot is that of a file, or free, in a
directory that is still there, and its start cluster is that of the entry or belongs to
nothing. -/
structure WriteTarget (v : Volume) (vp : Vnode) (l : List ℕ) (p : ℕ) : Prop where
  dir : LiveDir v vp.dirCluster
  chain : v.Chain vp.dirCluster l
  offset : vp.dirEntryOffset = p * 32
  slot : FileSlot (dirSlots v l) p
  start : vp.startCluster < 2 ∨ Owns v (.entry vp.dirCluster p) vp.startCluster ∨
    ∃ k, v.Chain vp.startCluster k ∧ k ≠ [] ∧ Unowned v k

section

variable (hi : Intact v)
include hi

/-- The start cluster of a file is not that of a directory. -/
theorem Intact.not_liveDir (hsound : v.geo.Sound) (hl : v.Chain d l)
    (hslot : FileSlot (dirSlots v l) p) (ho : Owns v (.entry d p) c) : ¬ LiveDir v c := by
  intro hc
  obtain ⟨k, hk, hne⟩ := hi.chain ho
  obtain ⟨y, ys, rfl⟩ := List.exists_cons_of_ne_nil hne
  -- Another owner of the same chain is impossible, so the directory is the entry of the slot.
  have hsame : ∀ o', Owns v o' c → o' = .entry d p := by
    intro o' ho'
    by_contra hne
    exact hi.disjoint ho' ho hne hk hk (List.mem_cons_self) List.mem_cons_self
  have howner : ∃ e ∈ listing v l, e.pos = p ∧ isDirAttr (dirAttr e.de) = true := by
    cases hc with
    | root => cases hsame .root .root
    | @sub d' l' e hd' hl' he hsub =>
      obtain ⟨rfl, rfl⟩ := Owner.entry.inj
        (hsame _ (.entry hd' hl' he hsub.notDot hsub.cluster))
      obtain rfl := hl'.unique hl hsound
      exact ⟨e, he, rfl, hsub.isDir⟩
  obtain ⟨e, he, rfl, hisDir⟩ := howner
  rcases hslot with ⟨e', he', hpos, hfile⟩ | ⟨de, hde, hfree⟩
  · rw [eq_of_pos_eq he he' hpos.symm, hfile] at hisDir
    exact absurd hisDir (by decide)
  · exact pos_ne_of_free hde hfree he rfl

/-- The chain `k` from `c` on belongs to the slot `p` of the directory `d` at most. -/
structure FileChain (v : Volume) (d p c : ℕ) (k : List ℕ) : Prop where
  chain : v.Chain c k
  nonempty : k ≠ []
  owner : (Owns v (.entry d p) c ∧ ¬ LiveDir v c) ∨ Unowned v k

theorem FileChain.apart (h : FileChain v d p c k) {o : Owner} {c' : ℕ} {l : List ℕ}
    (hne : o ≠ .entry d p) (ho : Owns v o c') (hl : v.Chain c' l) : l.Disjoint k := by
  rcases h.owner with ⟨howns, -⟩ | hun
  · exact hi.disjoint ho howns hne hl h.chain
  · exact hun o c' l ho hl

/-- A write to the clusters of a file, which may get more of them, leaves the tree as it is. -/
theorem Intact.growFile (hsound : v.geo.Sound) (hf : FileChain v d p c k) (hkeeps : Keeps v v' k)
    (hchain : v'.Chain c (k ++ ext)) (hfree : ∀ y ∈ ext, v.fat y = 0) :
    Untouched v v' ∧
      ∀ o c' l, o ≠ .entry d p → Owns v' o c' → v'.Chain c' l → l.Disjoint (k ++ ext) := by
  have hapart : ∀ {o c' l}, o ≠ .entry d p → Owns v o c' → v.Chain c' l →
      l.Disjoint (k ++ ext) := by
    intro o c' l hne ho hl y hy hy'
    rcases List.mem_append.mp hy' with hmem | hmem
    · exact hf.apart hi hne ho hl hy hmem
    · exact hl.fat_ne_zero hy (hfree y hmem)
  rcases hf.owner with ⟨howns, hnot⟩ | hun
  · obtain ⟨hi', hsame, hother⟩ := hi.keeps hsound hkeeps (· = .entry d p)
      (fun _ _ h h' => h.trans h'.symm) (fun o c' l hne ho hl => hf.apart hi hne ho hl)
      fun o c' l heq ho hl => by
        obtain rfl := (heq ▸ ho).unique howns hsound
        obtain rfl := hl.unique hf.chain hsound
        refine ⟨l ++ ext, ⟨hchain, by simp [hf.nonempty], fun hd => absurd hd hnot,
          fun hd => absurd hd hnot⟩, fun y hy => ?_⟩
        rcases List.mem_append.mp hy with hmem | hmem
        · exact .inl hmem
        · exact .inr (.inr (hfree y hmem))
    exact ⟨⟨hi', hsame, hkeeps.geo, hkeeps.hint⟩, fun o c' l hne ho hl =>
      hapart hne ((hsame.owns o c').mp ho) (hother o c' l hne ho hl)⟩
  · obtain ⟨hi', hsame, hother⟩ := hi.keeps_apart hsound hkeeps hun
    exact ⟨⟨hi', hsame, hkeeps.geo, hkeeps.hint⟩, fun o c' l hne ho hl =>
      hapart hne ((hsame.owns o c').mp ho) (hother o c' l ho hl)⟩

/-- Storing the size and the start cluster in the entry of the file. -/
theorem Intact.updateDirent (vp : Vnode) (hsound : v.geo.Sound) (hd : LiveDir v vp.dirCluster)
    (hl : v.Chain vp.dirCluster l) (hoffset : vp.dirEntryOffset = p * 32)
    (hslot : FileSlot (dirSlots v l) p) (hk : v.Chain vp.startCluster k) (hne : k ≠ [])
    (hapart : ∀ o c' l, o ≠ .entry vp.dirCluster p → Owns v o c' → v.Chain c' l → l.Disjoint k)
    (hframes : frames ≠ 0) :
    ∃ v' x, updateDirent frames v vp = some v' ∧ Intact v' ∧ x ∈ l ∧ OnlyCluster v v' x ∧
      dirSlots v' l = (dirSlots v l).modify p (setFile vp.fileSize vp.startCluster) := by
  obtain ⟨l₀, hl₀, hlne⟩ := hi.dirChain hd
  obtain rfl := hl.unique hl₀ hsound
  have htwo : ¬ vp.dirCluster < 2 := by
    have := (hl.isData_start hlne).1
    omega
  have hstart := hsound.lt_of_isData (hk.isData_start hne)
  have hp : p < l.length * v.geo.perCluster := by
    rw [← length_dirSlots]
    rcases hslot with ⟨e, he, rfl, -⟩ | ⟨de, hde, -⟩
    · have := pos_of_mem_reported he
      omega
    · exact (List.getElem?_eq_some_iff.mp hde).1
  obtain ⟨v', x, hpatch, hx, ho, hslots⟩ := hl.patchDirent_eq hsound hframes
    (slotPatch_setFile vp.fileSize vp.startCluster) hp
  have htail : ZeroTail (dirSlots v' l) := by
    rw [hslots]
    exact (hi.tail hd hl).setFile p vp.fileSize vp.startCluster
  refine ⟨v', x, ?_, ?_, hx, ho, hslots⟩
  · rw [Fat32.updateDirent, if_neg htwo, hoffset]
    exact hpatch
  rcases hslot with ⟨e, he, rfl, hfile⟩ | ⟨de, hde, hfree⟩
  · obtain ⟨es₁, es₂, hlist, hlist', hother⟩ :=
      reported_setFile he vp.fileSize vp.startCluster
    rw [← hslots] at hlist'
    refine (hi.patch (p := e.pos) hsound hd hl hx ho
      (fun e' => e' = e.setFile vp.fileSize vp.startCluster) (fun e' he' => ?_) htail
      fun e' he' _ _ => ?_).intact
    · have hmem : e' ∈ es₁ ++ e.setFile vp.fileSize vp.startCluster :: es₂ := hlist' ▸ he'
      rw [listing, hlist]
      rcases List.mem_append.mp hmem with h | h
      · exact .inl ⟨by simp [h], hother e' (by simp [h])⟩
      · rcases List.mem_cons.mp h with rfl | h
        · exact .inr ⟨rfl, rfl⟩
        · exact .inl ⟨by simp [h], hother e' (by simp [h])⟩
    · subst he'
      have hcluster : (e.setFile vp.fileSize vp.startCluster).cluster = vp.startCluster :=
        direntCluster_setFile vp.fileSize hstart e.de
      refine ⟨k, by rw [hcluster]; exact hk, hne, hapart, fun hisDir => ?_⟩
      have hattr : dirAttr (e.setFile vp.fileSize vp.startCluster).de = dirAttr e.de :=
        dirAttr_setFile _ _ _
      rw [hattr, hfile] at hisDir
      exact absurd hisDir (by decide)
  · refine (hi.patch (p := p) hsound hd hl hx ho (fun _ => False) (fun e' he' => ?_) htail
      fun _ h => absurd h id).intact
    have hold : e' ∈ listing v l := by
      rw [listing, hslots, reported_setFile_free hde hfree] at he'
      exact he'
    exact .inl ⟨hold, pos_ne_of_free hde hfree hold⟩

/-- A step that leaves the chain of the directory alone keeps the target of a write. -/
theorem Intact.dir_disjoint (hd : LiveDir v d) (hl : v.Chain d l) (hf : FileChain v d p c k) :
    l.Disjoint k := by
  obtain ⟨od, hod, hodne⟩ := hd.owns
  exact hf.apart hi (hodne p) hod hl

/-- The rest of a write, when the chain has its clusters. -/
theorem Intact.writeBytes (hsound : v.geo.Sound) (hd : LiveDir v vp.dirCluster)
    (hl : v.Chain vp.dirCluster l) (hoffset : vp.dirEntryOffset = p * 32)
    (hslot : FileSlot (dirSlots v l) p) (hf : FileChain v vp.dirCluster p vp.startCluster k)
    (hg : GrownFile frames v u vp.startCluster k ext) (src : Bytes) (nbyte offset endOffset : ℕ) :
    ∃ v' vp' rc, writeBytes frames u vp src nbyte offset endOffset = (v', vp', rc) ∧
      Intact v' ∧ v'.geo = v.geo ∧ v'.HintOk := by
  have husound : u.geo.Sound := hg.keeps.geo ▸ hsound
  have hne : k ++ ext ≠ [] := by simp [hf.nonempty]
  obtain ⟨hun, -⟩ := hi.growFile hsound hf hg.keeps hg.chain hg.free
  rw [Fat32.writeBytes]
  by_cases hskip : offset / u.geo.clusterSize % 2 ^ 32 < (k ++ ext).length
  · rw [hg.chain.skipLinks_eq husound hskip]
    by_cases hframes : frames = 0
    · simp only [if_pos hframes]
      exact ⟨u, vp, -1, rfl, hun.intact, hun.geo, hun.hint⟩
    simp only [if_neg hframes]
    -- The copy loop starts in the middle of the chain and writes clusters of it only.
    have hloop := (hg.chain.dropAt hskip).writeLoop_only husound src nbyte
      (offset % u.geo.clusterSize) 0 nbyte
    generalize writeLoop src nbyte u (k ++ ext)[offset / u.geo.clusterSize % 2 ^ 32]
      (offset % u.geo.clusterSize) 0 nbyte = r at hloop ⊢
    obtain ⟨w, count⟩ := r
    have hkeeps : Keeps v w k := hg.keeps.trans (hloop.keeps hun.hint) fun y hy => by
      rcases List.mem_append.mp (List.mem_of_mem_drop hy) with hmem | hmem
      · exact .inl hmem
      · exact .inr (hg.free y hmem)
    have hchain : w.Chain vp.startCluster (k ++ ext) := hloop.chain hg.chain
    obtain ⟨hun', hapart⟩ := hi.growFile hsound hf hkeeps hchain hg.free
    obtain ⟨hlw, hdata⟩ := hkeeps.chain _ l hl (hi.dir_disjoint hd hl hf)
    have hslots : dirSlots w l = dirSlots v l := dirSlots_congr hkeeps.geo hdata
    generalize hvp : (if vp.fileSize < endOffset then
      { vp with fileSize := endOffset % 2 ^ 32 } else vp) = vp'
    obtain ⟨hcluster, hentry, hstart⟩ : vp'.dirCluster = vp.dirCluster ∧
        vp'.dirEntryOffset = vp.dirEntryOffset ∧ vp'.startCluster = vp.startCluster := by
      rw [← hvp]
      split_ifs <;> exact ⟨rfl, rfl, rfl⟩
    obtain ⟨v', x, hupdate, hi', -, ho, -⟩ := hun'.intact.updateDirent vp' (p := p)
      (l := l) (k := k ++ ext) (hun'.geo ▸ hsound)
      (by rw [hcluster]; exact (hun'.sameTree.liveDir _).mpr hd) (by rw [hcluster]; exact hlw)
      (hentry.trans hoffset) (by rw [hslots]; exact hslot) (by rw [hstart]; exact hchain) hne
      (by rw [hcluster]; exact hapart) hframes
    refine ⟨v', vp', asInt count, ?_, hi', ho.geo.trans hun'.geo, ho.hintOk hun'.hint⟩
    simp only [hupdate, Option.getD_some]
  · rw [hg.chain.skipLinks_none hne (by omega)]
    exact ⟨u, vp, -1, rfl, hun.intact, hun.geo, hun.hint⟩

end

/-- The first cluster of a file belongs to its slot, or to nothing if it is new. -/
theorem Begun.owned {vp' : Vnode} {k₀ : List ℕ} (hb : Begun frames v u vp vp' k₀ k)
    (h : VolumeOk v) (hf : k₀ ≠ [] → FileChain v d p vp.startCluster k₀) :
    Untouched v u ∧ FileChain u d p vp'.startCluster k := by
  rcases hb.start with ⟨rfl, rfl, rfl⟩ | ⟨-, -, x, rfl, ha⟩
  · exact ⟨.refl h.intact h.hint, hf hb.nonempty⟩
  · obtain ⟨hun, -⟩ := h.intact.untouched h.sound hb.keeps (unowned_nil v)
    exact ⟨hun, hb.chain, hb.nonempty,
      .inr (h.intact.unowned_of_free h.sound hb.keeps ha.free)⟩

theorem WriteTarget.clusters (ht : WriteTarget v vp l p) (h : VolumeOk v) :
    ∃ k, v.FileClusters vp.startCluster k ∧
      (k ≠ [] → FileChain v vp.dirCluster p vp.startCluster k) := by
  rcases ht.start with hlt | howns | ⟨k, hk, hne, hun⟩
  · exact ⟨[], .inl ⟨hlt, rfl⟩, fun hne => absurd rfl hne⟩
  · obtain ⟨k, hk, hne⟩ := h.intact.chain howns
    exact ⟨k, .inr ⟨hk, hne⟩, fun _ => ⟨hk, hne,
      .inl ⟨howns, h.intact.not_liveDir h.sound ht.chain ht.slot howns⟩⟩⟩
  · exact ⟨k, .inr ⟨hk, hne⟩, fun _ => ⟨hk, hne, .inr hun⟩⟩

/-- A write through a vnode that is up to date keeps the volume intact. -/
theorem VolumeOk.vopWriteAt (h : VolumeOk v) {nbyte : ℕ}
    (ht : vp.isDir = false → nbyte ≠ 0 → ∃ l p, WriteTarget v vp l p) (frames : ℕ) (src : Bytes)
    (offset : ℕ) :
    ∃ v' vp' rc, Fat32.vopWriteAt frames v vp src nbyte offset = some (v', vp', rc) ∧
      VolumeOk v' := by
  by_cases hdir : vp.isDir = true
  · exact ⟨v, vp, -1, if_pos hdir, h⟩
  by_cases hzero : nbyte = 0
  · exact ⟨v, vp, 0, by rw [Fat32.vopWriteAt, if_neg hdir, if_pos hzero], h⟩
  have hfile : vp.isDir = false := by simpa using hdir
  obtain ⟨l, p, ht⟩ := ht hfile hzero
  obtain ⟨k₀, hk₀, hf₀⟩ := ht.clusters h
  have hcases := hk₀.vopWriteAt_cases h.sound h.hint hfile hzero src frames offset
  generalize Fat32.vopWriteAt frames v vp src nbyte offset = res at hcases
  cases hcases with
  | noCluster => exact ⟨v, vp, -1, rfl, h⟩
  | noRoom hb hg =>
    obtain ⟨hun, hf⟩ := hb.owned h hf₀
    obtain ⟨hun', -⟩ := hun.intact.growFile (hun.geo ▸ h.sound) hf hg.keeps hg.chain hg.free
    exact ⟨_, _, -1, rfl, h.of_geo hun'.intact (hun'.geo.trans hun.geo) hun'.hint⟩
  | @copies u w vp₁ k ext m endOffset hb hg hcase =>
    obtain ⟨hun, hf⟩ := hb.owned h hf₀
    have hdc : vp₁.dirCluster = vp.dirCluster := by rw [hb.vnode]
    have hoff : vp₁.dirEntryOffset = vp.dirEntryOffset := by rw [hb.vnode]
    obtain ⟨hlu, hdata⟩ := hb.keeps.chain _ l ht.chain (List.disjoint_nil_right _)
    have hslot : FileSlot (dirSlots u l) p := by
      rw [dirSlots_congr hb.keeps.geo hdata]
      exact ht.slot
    rw [← hdc] at hf hlu
    obtain ⟨v', vp', rc, hwrite, hi', hgeo, hhint'⟩ := hun.intact.writeBytes (hun.geo ▸ h.sound)
      (by rw [hdc]; exact (hun.sameTree.liveDir _).mpr ht.dir) hlu (hoff.trans ht.offset) hslot hf
      hg src m offset endOffset
    exact ⟨v', vp', rc, congrArg some hwrite, h.of_geo hi' (hgeo.trans hun.geo) hhint'⟩

end Tomahawk.Fat32
