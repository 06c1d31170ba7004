import Tomahawk.Ramfs.Lists
import Tomahawk.Lib.Rooted
import Tomahawk.Lib.Run

/-!
# The tree of vnodes

The invariant of the ramfs tree and its preservation by `create`, `mkdir`, `unlink` and
`rename`.
-/

namespace Tomahawk.Ramfs

open Function Tomahawk.Lib Relation

variable {s s' : Fs} {bits : ℕ} {d e f v w : ℕ} {name n : CStr}

/-- The address is a frame that is taken. -/
structure InUse (bits : ℕ) (s : Fs) (a : ℕ) : Prop where
  ne : a ≠ 0
  aligned : a % 4096 = 0
  bound : a / 4096 < bits
  taken : s.free (a / 4096) = false

/-- What a frame of the tree is used for. -/
inductive Owner where
  | vnode (v : ℕ)
  | inode (v : ℕ)
  | entry (e : ℕ)

/-- The frame of an owner. -/
def Owner.addr (s : Fs) : Owner → ℕ
  | .vnode v => v
  | .inode v => s.vData v
  | .entry e => e

/-- The frames of the owners are found through the inodes of the vnodes. -/
theorem Owner.addr_congr (h : s'.vData = s.vData) (o : Owner) : o.addr s' = o.addr s := by
  cases o with
  | inode v => exact congrFun h v
  | _ => rfl

/-- The owner belongs to the tree. -/
def Owner.Live (nodes : ℕ → Prop) (kids : ℕ → List ℕ) : Owner → Prop
  | .vnode v => nodes v
  | .inode v => nodes v
  | .entry e => ∃ v, nodes v ∧ e ∈ kids v

/-- A directory has an entry for the vnode. -/
def Edge (s : Fs) (nodes : ℕ → Prop) (kids : ℕ → List ℕ) (d c : ℕ) : Prop :=
  nodes d ∧ ∃ e ∈ kids d, s.entVnode e = c

/-- The vnodes `nodes` with the entries `kids` are a tree below the root, in frames of their
own. -/
structure Tree (bits : ℕ) (s : Fs) (nodes : ℕ → Prop) (kids : ℕ → List ℕ) : Prop where
  listed : Listed s nodes kids
  root : nodes s.rootVnode
  rootDir : s.vType s.rootVnode = .vdir
  dir : ∀ {v e}, nodes v → e ∈ kids v → s.vType v = .vdir
  child : ∀ {v e}, nodes v → e ∈ kids v → nodes (s.entVnode e)
  parent : ∀ {v e}, nodes v → e ∈ kids v → s.vParent (s.entVnode e) = v
  notRoot : ∀ {v e}, nodes v → e ∈ kids v → s.entVnode e ≠ s.rootVnode
  once : ∀ {v w e f}, nodes v → nodes w → e ∈ kids v → f ∈ kids w →
    s.entVnode e = s.entVnode f → e = f
  named : ∀ {v e}, nodes v → e ∈ kids v → ∃ n, Named s e n
  distinct : ∀ {v e f n}, nodes v → e ∈ kids v → f ∈ kids v → Named s e n → Named s f n → e = f
  reach : ∀ {v}, nodes v → ReflTransGen (Edge s nodes kids) s.rootVnode v
  used : ∀ {o : Owner}, o.Live nodes kids → InUse bits s (o.addr s)
  inj : ∀ {o o' : Owner}, o.Live nodes kids → o'.Live nodes kids → o.addr s = o'.addr s → o = o'
  refs : ∀ {v}, nodes v → s.iRefcount (s.vData v) = 1
  cache : ∀ {v}, nodes v → s.cacheList (s.vData v) = 0

variable {nodes : ℕ → Prop} {kids : ℕ → List ℕ} {o : Owner} {s'' : Fs} {vp de t : ℕ} {type : VType}
  {a b : List ℕ}

theorem InUse.lt (h : InUse bits s v) (hbits : bits ≤ 2 ^ 23) : v < 2 ^ 64 := by
  have := h.bound
  omega

/-! ## Frames -/

/-- An allocation takes a free frame, or returns 0. -/
theorem Fs.alloc_spec (bits : ℕ) (s : Fs) :
    (∃ free, s.alloc bits = ({ s with free := free }, 0) ∧
        ∀ i, s.free i = false → free i = false) ∨
      ∃ a, a ≠ 0 ∧ a % 4096 = 0 ∧ a / 4096 < bits ∧ s.free (a / 4096) = true ∧
        s.alloc bits = ({ s with free := update s.free (a / 4096) false }, a) := by
  unfold alloc
  cases hfind : Memory.findFree s.free bits 0 with
  | none => exact .inl ⟨s.free, rfl, fun _ h => h⟩
  | some i =>
    obtain ⟨hfree, hlt⟩ := Memory.findFree_eq_some hfind
    by_cases hi : i = 0
    · subst hi
      exact .inl ⟨_, rfl, fun j hj => Memory.update_used hj 0⟩
    · have hdiv : i * 4096 / 4096 = i := Nat.mul_div_cancel i (by decide)
      refine .inr ⟨i * 4096, by omega, by omega, by omega, by rwa [hdiv], ?_⟩
      rw [hdiv]

/-- Frames stay in use while others are taken. -/
theorem InUse.mono (h : InUse bits s v) (hfree : ∀ i, s.free i = false → s'.free i = false) :
    InUse bits s' v := ⟨h.ne, h.aligned, h.bound, hfree _ h.taken⟩

/-- Frames stay in use while another one is given back. -/
theorem InUse.release (h : InUse bits s v) {a : ℕ} (hne : v ≠ a) (ha : a % 4096 = 0) :
    InUse bits (s.release bits a) v := by
  refine ⟨h.ne, h.aligned, h.bound, ?_⟩
  simp only [Fs.release]
  split_ifs with hnull
  · exact h.taken
  · have haligned := h.aligned
    rw [update_of_ne (by omega)]
    exact h.taken

/-! ## The tree under changes elsewhere -/

/-- The frames of the tree hold the same data. -/
structure SameTree (s s' : Fs) (nodes : ℕ → Prop) (kids : ℕ → List ℕ) : Prop where
  root : s'.rootVnode = s.rootVnode
  vType : ∀ v, nodes v → s'.vType v = s.vType v
  vData : ∀ v, nodes v → s'.vData v = s.vData v
  vParent : ∀ v, nodes v → s'.vParent v = s.vParent v
  vChildren : ∀ v, nodes v → s'.vChildren v = s.vChildren v
  vNchildren : ∀ v, nodes v → s'.vNchildren v = s.vNchildren v
  iRefcount : ∀ v, nodes v → s'.iRefcount (s.vData v) = s.iRefcount (s.vData v)
  cacheList : ∀ v, nodes v → s'.cacheList (s.vData v) = s.cacheList (s.vData v)
  ents : ∀ v e, nodes v → e ∈ kids v → s'.ents e = s.ents e

theorem Named.of_ents (h : Named s e n) (hents : s'.ents e = s.ents e) : Named s' e n :=
  h.congr fun _ _ => by rw [hents]

theorem named_iff_of_ents (hents : s'.ents e = s.ents e) : Named s' e n ↔ Named s e n :=
  ⟨fun h => h.of_ents hents.symm, fun h => h.of_ents hents⟩

theorem SameTree.addr (h : SameTree s s' nodes kids) (ho : o.Live nodes kids) :
    o.addr s' = o.addr s := by
  cases o with
  | vnode v => rfl
  | inode v => exact h.vData v ho
  | entry e => rfl

theorem SameTree.edge (h : SameTree s s' nodes kids) :
    Edge s' nodes kids = Edge s nodes kids := by
  funext d c
  refine propext ⟨?_, ?_⟩
  · rintro ⟨hd, e, he, hc⟩
    exact ⟨hd, e, he, by rwa [Fs.entVnode, h.ents d e hd he] at hc⟩
  · rintro ⟨hd, e, he, hc⟩
    exact ⟨hd, e, he, by rwa [Fs.entVnode, h.ents d e hd he]⟩

/-- The tree stays if its frames do. -/
theorem Tree.of_same (h : Tree bits s nodes kids) (hsame : SameTree s s' nodes kids)
    (hused : ∀ o : Owner, o.Live nodes kids → InUse bits s' (o.addr s)) :
    Tree bits s' nodes kids := by
  have hvnode : ∀ {v e}, nodes v → e ∈ kids v → s'.entVnode e = s.entVnode e :=
    fun hv he => by rw [Fs.entVnode, hsame.ents _ _ hv he, ← Fs.entVnode]
  have hnamed : ∀ {v e n}, nodes v → e ∈ kids v → (Named s' e n ↔ Named s e n) :=
    fun hv he => named_iff_of_ents (hsame.ents _ _ hv he)
  refine ⟨h.listed.congr (fun _ hv => hv) hsame.vChildren hsame.vNchildren fun v hv e he => ?_,
    ?_, ?_, ?_, ?_, ?_, ?_, ?_, ?_, ?_, ?_, ?_, ?_, ?_, ?_⟩
  · rw [Fs.entNext, hsame.ents v e hv he, ← Fs.entNext]
  · rw [hsame.root]
    exact h.root
  · rw [hsame.root, hsame.vType _ h.root]
    exact h.rootDir
  · intro v e hv he
    rw [hsame.vType v hv]
    exact h.dir hv he
  · intro v e hv he
    rw [hvnode hv he]
    exact h.child hv he
  · intro v e hv he
    rw [hvnode hv he, hsame.vParent _ (h.child hv he)]
    exact h.parent hv he
  · intro v e hv he
    rw [hvnode hv he, hsame.root]
    exact h.notRoot hv he
  · intro v w e f hv hw he hf heq
    rw [hvnode hv he, hvnode hw hf] at heq
    exact h.once hv hw he hf heq
  · intro v e hv he
    obtain ⟨n, hn⟩ := h.named hv he
    exact ⟨n, (hnamed hv he).mpr hn⟩
  · intro v e f n hv he hf hne hnf
    exact h.distinct hv he hf ((hnamed hv he).mp hne) ((hnamed hv hf).mp hnf)
  · intro v hv
    rw [hsame.edge, hsame.root]
    exact h.reach hv
  · intro o ho
    rw [hsame.addr ho]
    exact hused o ho
  · intro o o' ho ho' heq
    rw [hsame.addr ho, hsame.addr ho'] at heq
    exact h.inj ho ho' heq
  · intro v hv
    rw [hsame.vData v hv, hsame.iRefcount v hv]
    exact h.refs hv
  · intro v hv
    rw [hsame.vData v hv, hsame.cacheList v hv]
    exact h.cache hv

/-! ## Finding a name -/

section

variable (h : Tree bits s nodes kids) (hv : nodes v)
include h hv

theorem Tree.entry_used (he : e ∈ kids v) :
    InUse bits s e := h.used (o := .entry e) ⟨v, hv, he⟩

/-- A directory has at most as many entries as there are frames. -/
theorem Tree.length_le : (kids v).length ≤ bits := by
  have hnodup : ((kids v).map (· / 4096)).Nodup := by
    refine (h.listed.nodup hv).map_on fun e he f hf heq => ?_
    have hae := (h.entry_used hv he).aligned
    have haf := (h.entry_used hv hf).aligned
    omega
  have hsub : ((kids v).map (· / 4096)).toFinset ⊆ Finset.range bits := by
    intro i hi
    obtain ⟨e, he, rfl⟩ := List.mem_map.mp (List.mem_toFinset.mp hi)
    exact Finset.mem_range.mpr (h.entry_used hv he).bound
  have hcard := Finset.card_le_card hsub
  rwa [List.toFinset_card_of_nodup hnodup, List.length_map, Finset.card_range] at hcard

/-- The search for a name in a directory finds its entry, or there is none. -/
theorem Tree.findLink (name : CStr) :
    (s.findLink name (bits + 1) (.head v) = none ∧ ∀ e ∈ kids v, ¬ Named s e name) ∨
      ∃ a e b, kids v = a ++ e :: b ∧ Named s e name ∧
        s.findLink name (bits + 1) (.head v) = some ((Link.head v).after a) ∧
        s.load ((Link.head v).after a) = e := by
  have hlist := h.listed.list v hv
  rcases hlist.findLink name (Nat.lt_succ_of_le (h.length_le hv)) with ⟨hnone, hall⟩ |
    ⟨a, e, b, hkids, -, hmatch, hsome⟩
  · refine .inl ⟨hnone, fun e he hn => ?_⟩
    simpa [hn.eq] using hall e he
  · obtain ⟨n, hn⟩ := h.named hv (show e ∈ kids v by simp [hkids])
    obtain rfl := hn.nameEq_iff.mp hmatch
    rw [hkids] at hlist
    exact .inr ⟨a, e, b, hkids, hn, hsome, hlist.load_after⟩

/-- `vfs_lookup_ramfs` answers 0 only if the directory has no entry with the name. -/
theorem Tree.lookup_eq_zero (hdir : s.vType v = .vdir) :
    vfsLookupRamfs bits s v name = 0 ↔ ∀ e ∈ kids v, ¬ Named s e name := by
  have hv0 : v ≠ 0 := (h.used (o := .vnode v) hv).ne
  unfold vfsLookupRamfs
  rw [if_neg (by simp [hv0, hdir])]
  rcases h.findLink hv name with ⟨hnone, hall⟩ | ⟨a, e, b, hkids, hn, hsome, hload⟩
  · rw [hnone]
    exact ⟨fun _ => hall, fun _ => rfl⟩
  · have he : e ∈ kids v := by simp [hkids]
    rw [hsome]
    simp only [hload]
    constructor
    · intro hzero
      exact absurd hzero (h.used (o := .vnode _) (h.child hv he)).ne
    · intro hall
      exact absurd hn (hall e he)

/-- `vfs_lookup_ramfs` answers the vnode of the entry with the name. -/
theorem Tree.lookup_eq (he : e ∈ kids v) (hn : Named s e name) :
    vfsLookupRamfs bits s v name = s.entVnode e := by
  have hv0 : v ≠ 0 := (h.used (o := .vnode v) hv).ne
  unfold vfsLookupRamfs
  rw [if_neg (by simp [hv0, h.dir hv he])]
  rcases h.findLink hv name with ⟨-, hall⟩ | ⟨a, f, b, hkids, hnf, hsome, hload⟩
  · exact absurd hn (hall e he)
  · obtain rfl := h.distinct hv (show f ∈ kids v by simp [hkids]) he hnf hn
    rw [hsome]
    simp only [hload]

end

/-! ## Creating -/

/-- The frames that were in use stay in use, with the fields that freeing a vnode reads. -/
structure Keeps (s s' : Fs) : Prop where
  free : ∀ i, s.free i = false → s'.free i = false
  vData : ∀ a, s.free (a / 4096) = false → s'.vData a = s.vData a
  cacheList : ∀ a, s.free (a / 4096) = false → s'.cacheList a = s.cacheList a

theorem Keeps.of_free {free : ℕ → Bool} (h : ∀ i, s.free i = false → free i = false) :
    Keeps s { s with free := free } := ⟨h, fun _ _ => rfl, fun _ _ => rfl⟩

theorem Keeps.trans (h : Keeps s s') (h' : Keeps s' s'') : Keeps s s'' where
  free := fun i hi => h'.free i (h.free i hi)
  vData := fun a ha => (h'.vData a (h.free _ ha)).trans (h.vData a ha)
  cacheList := fun a ha => (h'.cacheList a (h.free _ ha)).trans (h.cacheList a ha)

/-- A frame that is free now was free before. -/
theorem Keeps.free_of_free (h : Keeps s s') {i : ℕ} (hi : s'.free i = true) : s.free i = true := by
  by_contra hne
  rw [h.free i (by simpa using hne)] at hi
  cases hi

/-- Giving back frames that were free before. -/
theorem Keeps.release (h : Keeps s s') {a : ℕ} (ha : s.free (a / 4096) = true) :
    Keeps s (s'.release bits a) := by
  refine ⟨fun i hi => ?_, h.vData, h.cacheList⟩
  have hne : i ≠ a / 4096 := by
    rintro rfl
    rw [hi] at ha
    cases ha
  simp only [Fs.release]
  split_ifs
  · exact h.free i hi
  · rw [update_of_ne hne]
    exact h.free i hi

/-- A vnode of `vfs_create_vnode` that is not in the tree yet. -/
structure NewNode (bits : ℕ) (s : Fs) (nodes : ℕ → Prop) (kids : ℕ → List ℕ) (type : VType)
    (vp : ℕ) : Prop where
  used : InUse bits s vp
  usedInode : InUse bits s (s.vData vp)
  ne : vp ≠ s.vData vp
  fresh : ∀ o : Owner, o.Live nodes kids → o.addr s ≠ vp
  freshInode : ∀ o : Owner, o.Live nodes kids → o.addr s ≠ s.vData vp
  vType : s.vType vp = type
  vChildren : s.vChildren vp = 0
  vNchildren : s.vNchildren vp = 0
  iRefcount : s.iRefcount (s.vData vp) = 1
  cacheList : s.cacheList (s.vData vp) = 0

/-- A free frame is not one of the tree. -/
theorem Tree.addr_ne (h : Tree bits s nodes kids) {a : ℕ} (hfree : s.free (a / 4096) = true)
    (ho : o.Live nodes kids) : o.addr s ≠ a := by
  rintro rfl
  rw [(h.used ho).taken] at hfree
  cases hfree

/-- The two frames of a new vnode. -/
structure NewFrames (bits : ℕ) (s : Fs) (vp ip : ℕ) (free : ℕ → Bool) : Prop where
  used : InUse bits { s with free := free } vp
  usedInode : InUse bits { s with free := free } ip
  ne : vp ≠ ip
  wasFree : s.free (vp / 4096) = true
  inodeWasFree : s.free (ip / 4096) = true
  mono : ∀ i, s.free i = false → free i = false

/-- `vfs_create_vnode` takes two free frames, or fails and takes none of those in use. -/
theorem vfsCreateVnode_spec (bits : ℕ) (s : Fs) (type : VType) :
    (∃ free, vfsCreateVnode bits s type = ({ s with free := free }, 0) ∧
        ∀ i, s.free i = false → free i = false) ∨
      ∃ vp ip free, NewFrames bits s vp ip free ∧
        vfsCreateVnode bits s type = ({ s with free := free }.initVnode type vp ip, vp) := by
  unfold vfsCreateVnode
  rcases s.alloc_spec bits with ⟨free, halloc, hmono⟩ | ⟨vp, hvp, haligned, hbound, hvfree, halloc⟩
  · simp only [halloc]
    exact .inl ⟨free, rfl, hmono⟩
  cases vp with
  | zero => exact absurd rfl hvp
  | succ m =>
  simp only [halloc]
  set s₁ : Fs := { s with free := update s.free ((m + 1) / 4096) false } with hs₁
  rcases s₁.alloc_spec bits with ⟨free, halloc₁, hmono⟩ |
    ⟨ip, hip, hipAligned, hipBound, hipFree, halloc₁⟩
  · simp only [halloc₁]
    refine .inl ⟨_, rfl, fun i hi => ?_⟩
    have hne : i ≠ (m + 1) / 4096 := by
      rintro rfl
      rw [hi] at hvfree
      cases hvfree
    rw [if_neg (by omega), update_of_ne hne]
    exact hmono i (Memory.update_used hi _)
  · cases ip with
    | zero => exact absurd rfl hip
    | succ k =>
    simp only [halloc₁]
    have hframes : (k + 1) / 4096 ≠ (m + 1) / 4096 := by
      intro heq
      simp [hs₁, heq] at hipFree
    have hipFree' : s.free ((k + 1) / 4096) = true :=
      (update_of_ne hframes _ _).symm.trans hipFree
    refine .inr ⟨m + 1, k + 1, _, ⟨⟨hvp, haligned, hbound, ?_⟩,
      ⟨hip, hipAligned, hipBound, update_self _ _ _⟩, ?_, hvfree, hipFree',
      fun i hi => Memory.update_used (Memory.update_used hi _) _⟩, rfl⟩
    · exact Memory.update_used (update_self _ _ _) _
    · exact fun heq => hframes (by rw [heq])

/-- Changes of the bitmap alone. -/
theorem SameTree.of_free (s : Fs) (free : ℕ → Bool) (nodes : ℕ → Prop) (kids : ℕ → List ℕ) :
    SameTree s { s with free := free } nodes kids :=
  ⟨rfl, fun _ _ => rfl, fun _ _ => rfl, fun _ _ => rfl, fun _ _ => rfl, fun _ _ => rfl,
    fun _ _ => rfl, fun _ _ => rfl, fun _ _ _ _ => rfl⟩

/-- `vfs_create_vnode` makes a vnode outside the tree, or fails and keeps the tree. -/
theorem Tree.vfsCreateVnode (h : Tree bits s nodes kids) (type : VType) :
    (∃ free, Ramfs.vfsCreateVnode bits s type = ({ s with free := free }, 0) ∧
        Tree bits { s with free := free } nodes kids ∧ Keeps s { s with free := free }) ∨
      ∃ s' vp, vp ≠ 0 ∧ Ramfs.vfsCreateVnode bits s type = (s', vp) ∧ Tree bits s' nodes kids ∧
        NewNode bits s' nodes kids type vp ∧ SameTree s s' nodes kids ∧ Keeps s s' ∧
        s.free (vp / 4096) = true ∧ s.free (s'.vData vp / 4096) = true := by
  rcases vfsCreateVnode_spec bits s type with ⟨free, hcreate, hmono⟩ |
    ⟨vp, ip, free, hframes, hcreate⟩
  · exact .inl ⟨free, hcreate, h.of_same (SameTree.of_free s free nodes kids) (fun o ho =>
      (h.used ho).mono hmono), Keeps.of_free hmono⟩
  have hfresh : ∀ o : Owner, o.Live nodes kids → o.addr s ≠ vp :=
    fun o ho => h.addr_ne hframes.wasFree ho
  have hfreshIp : ∀ o : Owner, o.Live nodes kids → o.addr s ≠ ip :=
    fun o ho => h.addr_ne hframes.inodeWasFree ho
  refine .inr ⟨_, vp, hframes.used.ne, hcreate, ?_⟩
  set s₂ : Fs := { s with free := free } with hs₂
  have hvnode : ∀ v, nodes v → v ≠ vp := fun v hv => hfresh (.vnode v) hv
  have hinode : ∀ v, nodes v → s.vData v ≠ ip := fun v hv => hfreshIp (.inode v) hv
  have hsame : SameTree s (s₂.initVnode type vp ip) nodes kids :=
    ⟨rfl, fun v hv => update_of_ne (hvnode v hv) _ _, fun v hv => update_of_ne (hvnode v hv) _ _,
      fun v hv => update_of_ne (hvnode v hv) _ _, fun v hv => update_of_ne (hvnode v hv) _ _,
      fun v hv => update_of_ne (hvnode v hv) _ _, fun v hv => update_of_ne (hinode v hv) _ _,
      fun v hv => update_of_ne (hinode v hv) _ _, fun _ _ _ _ => rfl⟩
  have hdata : (s₂.initVnode type vp ip).vData vp = ip := update_self _ _ _
  have hkeeps : Keeps s (s₂.initVnode type vp ip) := by
    refine ⟨hframes.mono, fun a ha => update_of_ne ?_ _ _,
      fun a ha => update_of_ne ?_ _ _⟩
    · rintro rfl
      rw [hframes.wasFree] at ha
      cases ha
    · rintro rfl
      rw [hframes.inodeWasFree] at ha
      cases ha
  refine ⟨h.of_same hsame fun o ho => (h.used ho).mono hframes.mono, ?_, hsame, hkeeps,
    hframes.wasFree, by rw [hdata]; exact hframes.inodeWasFree⟩
  refine ⟨hframes.used.mono fun _ hi => hi, ?_, ?_, fun o ho => ?_, fun o ho => ?_,
    update_self _ _ _, update_self _ _ _, update_self _ _ _, ?_, ?_⟩
  · rw [hdata]
    exact hframes.usedInode.mono fun _ hi => hi
  · rw [hdata]
    exact hframes.ne
  · rw [hsame.addr ho]
    exact hfresh o ho
  · rw [hsame.addr ho, hdata]
    exact hfreshIp o ho
  · rw [hdata]
    exact update_self _ _ _
  · rw [hdata]
    exact update_self _ _ _

/-- The name of a new entry. -/
theorem newEnt_strEq (b : Bytes) (name : CStr) (c : ℕ) :
    (newEnt b name c).strEq 0 (name.take 63).bytes = true := by
  have hlength := name.length_take 63
  unfold newEnt
  rw [Bytes.strEq_congr fun k _ hk => Bytes.putLe_of_lt (by omega)]
  exact Bytes.strEq_putStr (name.take 63).noNul

/-- The vnode of a new entry. -/
theorem newEnt_vnode (b : Bytes) (name : CStr) {c : ℕ} (hc : c < 2 ^ 64) :
    (newEnt b name c).le 64 8 = c := by
  unfold newEnt
  rw [Bytes.le_putLe]
  exact Nat.mod_eq_of_lt hc

/-- The entries after one is added to `d` and a vnode without entries. -/
def addKid (kids : ℕ → List ℕ) (d de vp : ℕ) : ℕ → List ℕ :=
  update (update kids d (de :: kids d)) vp []

theorem mem_addKid :
    e ∈ addKid kids d de vp v ↔ v ≠ vp ∧ (e ∈ kids v ∨ v = d ∧ e = de) := by
  unfold addKid
  by_cases hv : v = vp
  · subst hv
    simp
  · rw [update_of_ne hv, mem_update_cons]
    simp [hv, and_comm, eq_comm]

/-- What belongs to the tree with a new vnode: the old owners and three new ones. -/
theorem Owner.Live.of_addKid (ho : o.Live (fun v => nodes v ∨ v = vp) (addKid kids d de vp)) :
    ((o.Live nodes kids ∨ o = .vnode vp) ∨ o = .inode vp) ∨ o = .entry de := by
  cases o with
  | vnode v => exact .inl (.inl (ho.imp id fun hv => by rw [hv]))
  | inode v => exact .inl (ho.imp .inl fun hv => by rw [hv])
  | entry e =>
    obtain ⟨v, hv, he⟩ := ho
    obtain ⟨hne, he⟩ := mem_addKid.mp he
    rcases he with he | ⟨-, rfl⟩
    · exact .inl (.inl (.inl ⟨v, hv.resolve_right hne, he⟩))
    · exact .inr rfl

/-- One more owner with an address of its own. -/
theorem Owner.inj_insert {live : Owner → Prop} {addr : Owner → ℕ} {a : Owner}
    (h : ∀ {o o'}, live o → live o' → addr o = addr o' → o = o')
    (ha : ∀ o, live o → addr o ≠ addr a) {o' : Owner} (ho : live o ∨ o = a) (ho' : live o' ∨ o' = a)
    (heq : addr o = addr o') : o = o' := by
  rcases ho with ho | rfl <;> rcases ho' with ho' | rfl
  · exact h ho ho' heq
  · exact absurd heq (ha o ho)
  · exact absurd heq.symm (ha o' ho')
  · rfl

/-- The state after a new vnode is hung in a directory with the entry `de`. -/
def Fs.hang (s : Fs) (d : ℕ) (name : CStr) (vp de : ℕ) : Fs :=
  let s := { s with free := update s.free (de / 4096) false }
  let s := (s.setEnt de (newEnt (s.ents de) name vp)).prepend d de
  { s with vParent := update s.vParent vp d }

section

variable (s : Fs) (d : ℕ) (name : CStr) (vp de : ℕ)

@[simp] theorem Fs.hang_vData : (s.hang d name vp de).vData = s.vData := rfl
@[simp] theorem Fs.hang_vParent :
    (s.hang d name vp de).vParent = update s.vParent vp d := rfl

end

theorem Fs.ents_hang_of_ne (he : e ≠ de) : (s.hang d name vp de).ents e = s.ents e := by
  simp only [hang, prepend, setEnt, update_of_ne he]

theorem Fs.ents_hang_self (s : Fs) (d : ℕ) (name : CStr) (vp de : ℕ) {k : ℕ} (hk : k < 72) :
    (s.hang d name vp de).ents de k = newEnt (s.ents de) name vp k := by
  simp only [hang, prepend, setEnt, update_self]
  exact Bytes.putLe_of_lt hk

section

variable (h : Tree bits s nodes kids) (hbits : bits ≤ 2 ^ 23)
  (hnew : NewNode bits s nodes kids type vp) (hd : nodes d)
include h hbits hnew hd

theorem Tree.listed_hang (hde : de ≠ 0) (hfresh : ∀ o : Owner, o.Live nodes kids → o.addr s ≠ de) :
    Listed (s.hang d name vp de) (fun v => nodes v ∨ v = vp) (addKid kids d de vp) := by
  have hvp : ∀ v, nodes v → v ≠ vp := fun v hv => hnew.fresh (.vnode v) hv
  have hmem : ∀ {v e}, nodes v ∨ v = vp → e ∈ update kids vp [] v →
      nodes v ∧ e ∈ kids v := by
    rintro v e (hv | rfl) he
    · rw [update_of_ne (hvp v hv)] at he
      exact ⟨hv, he⟩
    · rw [update_self] at he
      cases he
  -- The new vnode has an empty list.
  have hempty : Listed s (fun v => nodes v ∨ v = vp) (update kids vp []) := by
    refine ⟨?_, ?_, fun v w e hv hw hev hew => ?_⟩
    · rintro v (hv | rfl)
      · rw [update_of_ne (hvp v hv)]
        exact h.listed.list v hv
      · rw [update_self]
        exact ptr_eq_none.mpr hnew.vChildren
    · rintro v (hv | rfl)
      · rw [update_of_ne (hvp v hv)]
        exact h.listed.count v hv
      · rw [update_self]
        exact hnew.vNchildren
    · obtain ⟨hv, hev⟩ := hmem hv hev
      obtain ⟨hw, hew⟩ := hmem hw hew
      exact h.listed.apart v w e hv hw hev hew
  have hnotin : ∀ v, nodes v ∨ v = vp → de ∉ update kids vp [] v := by
    intro v hv he
    obtain ⟨hv, he⟩ := hmem hv he
    exact hfresh (.entry de) ⟨v, hv, he⟩ rfl
  have hset : Listed ({ s with free := update s.free (de / 4096) false }.setEnt de
      (newEnt (s.ents de) name vp)) (fun v => nodes v ∨ v = vp) (update kids vp []) := by
    refine hempty.congr (fun _ hv => hv) (fun _ _ => rfl) (fun _ _ => rfl) fun v hv e he => ?_
    have hne : e ≠ de := by
      rintro rfl
      exact hnotin v hv he
    simp only [Fs.entNext, Fs.setEnt, update_of_ne hne]
  have hprepend := hset.prepend (.inl hd) hde hnotin fun e he =>
    (h.entry_used (hmem (.inl hd) he).1 (hmem (.inl hd) he).2).lt hbits
  have hkids : addKid kids d de vp = update (update kids vp []) d
      (de :: update kids vp [] d) := by
    rw [update_of_ne (hvp d hd), addKid, update_comm (hvp d hd)]
  rw [hkids]
  exact hprepend.congr (fun _ hv => hv) (fun _ _ => rfl) (fun _ _ => rfl) fun _ _ _ _ => rfl

theorem Tree.hang (hdir : s.vType d = .vdir) (hno : ∀ e ∈ kids d, ¬ Named s e (name.take 63))
    (hde : de ≠ 0) (hdeAligned : de % 4096 = 0) (hdeBound : de / 4096 < bits)
    (hdeFree : s.free (de / 4096) = true) :
    Tree bits (s.hang d name vp de) (fun v => nodes v ∨ v = vp) (addKid kids d de vp) := by
  have hvp : ∀ v, nodes v → v ≠ vp := fun v hv => hnew.fresh (.vnode v) hv
  have hfresh : ∀ o : Owner, o.Live nodes kids → o.addr s ≠ de := fun o ho => h.addr_ne hdeFree ho
  have hkids : ∀ {v e}, nodes v → e ∈ kids v → e ≠ de :=
    fun hv he => hfresh (.entry _) ⟨_, hv, he⟩
  have hused : ∀ {a}, InUse bits s a → InUse bits (s.hang d name vp de) a :=
    fun ha => ha.mono fun _ hi => Memory.update_used hi _
  have hself : (s.hang d name vp de).entVnode de = vp := by
    rw [Fs.entVnode, Bytes.le_congr fun k _ hk => s.ents_hang_self d name vp de hk]
    exact newEnt_vnode _ _ (hnew.used.lt hbits)
  have hold : ∀ {e}, e ≠ de → (s.hang d name vp de).entVnode e = s.entVnode e :=
    fun he => by rw [Fs.entVnode, Fs.ents_hang_of_ne he, ← Fs.entVnode]
  have hselfNamed : Named (s.hang d name vp de) de (name.take 63) := by
    have hlength := name.length_take 63
    refine ⟨hlength, ?_⟩
    rw [Fs.nameEq, Bytes.strEq_congr fun k _ hk => s.ents_hang_self d name vp de (by omega)]
    exact newEnt_strEq _ _ _
  have hnamed : ∀ {e n}, e ≠ de → (Named (s.hang d name vp de) e n ↔ Named s e n) :=
    fun he => named_iff_of_ents (Fs.ents_hang_of_ne he)
  -- An entry of the new tree is an old one or the new one, in `d`.
  have hcases : ∀ {v e}, (nodes v ∨ v = vp) → e ∈ addKid kids d de vp v →
      nodes v ∧ (e ∈ kids v ∧ e ≠ de ∨ v = d ∧ e = de) := by
    intro v e hv he
    obtain ⟨hne, he⟩ := mem_addKid.mp he
    have hv : nodes v := hv.resolve_right hne
    exact ⟨hv, he.imp (fun he => ⟨he, hkids hv he⟩) id⟩
  have hedge : ∀ {c b}, Edge s nodes kids c b →
      Edge (s.hang d name vp de) (fun v => nodes v ∨ v = vp) (addKid kids d de vp) c b := by
    rintro c b ⟨hc, e, he, rfl⟩
    exact ⟨.inl hc, e, mem_addKid.mpr ⟨hvp c hc, .inl he⟩, hold (hkids hc he)⟩
  have haddr := Owner.addr_congr (s.hang_vData d name vp de)
  have hfreshNew : ∀ {a}, InUse bits s a → a ≠ de := by
    rintro a ha rfl
    rw [ha.taken] at hdeFree
    cases hdeFree
  refine ⟨h.listed_hang hbits hnew hd hde hfresh, .inl h.root, h.rootDir, ?_, ?_, ?_, ?_, ?_, ?_,
    ?_, ?_, ?_, ?_, ?_, ?_⟩
  · intro v e hv he
    obtain ⟨hv, ⟨he, -⟩ | ⟨rfl, -⟩⟩ := hcases hv he
    · exact h.dir hv he
    · exact hdir
  · intro v e hv he
    obtain ⟨hv, ⟨he, hne⟩ | ⟨-, rfl⟩⟩ := hcases hv he
    · rw [hold hne]
      exact .inl (h.child hv he)
    · exact .inr hself
  · intro v e hv he
    obtain ⟨hv, ⟨he, hne⟩ | ⟨rfl, rfl⟩⟩ := hcases hv he
    · rw [hold hne, Fs.hang_vParent, update_of_ne (hvp _ (h.child hv he))]
      exact h.parent hv he
    · rw [hself, Fs.hang_vParent, update_self]
  · intro v e hv he
    obtain ⟨hv, ⟨he, hne⟩ | ⟨-, rfl⟩⟩ := hcases hv he
    · rw [hold hne]
      exact h.notRoot hv he
    · rw [hself]
      exact (hvp _ h.root).symm
  · intro v w e f hv hw he hf heq
    obtain ⟨hv, ⟨heOld, hne⟩ | ⟨-, rfl⟩⟩ := hcases hv he
    · obtain ⟨hw, ⟨hfOld, hnf⟩ | ⟨-, rfl⟩⟩ := hcases hw hf
      · rw [hold hne, hold hnf] at heq
        exact h.once hv hw heOld hfOld heq
      · rw [hold hne, hself] at heq
        exact absurd heq (hvp _ (h.child hv heOld))
    · obtain ⟨hw, ⟨hfOld, hnf⟩ | ⟨-, rfl⟩⟩ := hcases hw hf
      · rw [hold hnf, hself] at heq
        exact absurd heq.symm (hvp _ (h.child hw hfOld))
      · rfl
  · intro v e hv he
    obtain ⟨hv, ⟨he, hne⟩ | ⟨-, rfl⟩⟩ := hcases hv he
    · obtain ⟨n, hn⟩ := h.named hv he
      exact ⟨n, (hnamed hne).mpr hn⟩
    · exact ⟨_, hselfNamed⟩
  · intro v e f n hv he hf hne hnf
    obtain ⟨hv', ⟨heOld, hede⟩ | ⟨hvd, rfl⟩⟩ := hcases hv he
    · obtain ⟨-, ⟨hfOld, hfde⟩ | ⟨rfl, rfl⟩⟩ := hcases hv hf
      · exact h.distinct hv' heOld hfOld ((hnamed hede).mp hne) ((hnamed hfde).mp hnf)
      · obtain rfl := hselfNamed.nameEq_iff.mp hnf.eq
        exact absurd ((hnamed hede).mp hne) (hno e heOld)
    · subst hvd
      obtain ⟨-, ⟨hfOld, hfde⟩ | ⟨-, rfl⟩⟩ := hcases hv hf
      · obtain rfl := hselfNamed.nameEq_iff.mp hne.eq
        exact absurd ((hnamed hfde).mp hnf) (hno f hfOld)
      · rfl
  · rintro v (hv | rfl)
    · exact ReflTransGen.mono (fun _ _ => hedge) _ _ (h.reach hv)
    · refine (ReflTransGen.mono (fun _ _ => hedge) _ _ (h.reach hd)).tail ?_
      exact ⟨.inl hd, de, mem_addKid.mpr ⟨hvp d hd, .inr ⟨rfl, rfl⟩⟩, hself⟩
  · intro o ho
    rcases ho.of_addKid with ((hold | rfl) | rfl) | rfl
    · exact hused (h.used hold)
    · exact hused hnew.used
    · exact hused hnew.usedInode
    · exact ⟨hde, hdeAligned, hdeBound, update_self _ _ _⟩
  · intro o o' ho ho' heq
    rw [haddr, haddr] at heq
    refine Owner.inj_insert (Owner.inj_insert (Owner.inj_insert (a := .vnode vp) h.inj
      hnew.fresh) ?_) ?_ ho.of_addKid ho'.of_addKid heq
    · rintro o (ho | rfl)
      · exact hnew.freshInode o ho
      · exact hnew.ne
    · rintro o ((ho | rfl) | rfl)
      · exact hfresh o ho
      · exact hfreshNew hnew.used
      · exact hfreshNew hnew.usedInode
  · rintro v (hv | rfl)
    · exact h.refs hv
    · exact hnew.iRefcount
  · rintro v (hv | rfl)
    · exact h.cache hv
    · exact hnew.cacheList

/-- `vfs_add_dirent` hangs a new vnode in the tree, or fails for want of a frame. -/
theorem Tree.vfsAddDirent (hdir : s.vType d = .vdir) (hlookup : ∀ e ∈ kids d, ¬ Named s e name)
    (hno : ∀ e ∈ kids d, ¬ Named s e (name.take 63)) :
    (∃ free, Ramfs.vfsAddDirent bits s d name vp = ({ s with free := free }, -1) ∧
        ∀ i, s.free i = false → free i = false) ∨
      ∃ s' de, Ramfs.vfsAddDirent bits s d name vp = (s', 0) ∧
        Tree bits s' (fun v => nodes v ∨ v = vp) (addKid kids d de vp) ∧ Keeps s s' ∧
        s.free (de / 4096) = true ∧ s'.vData = s.vData := by
  have hd0 : d ≠ 0 := (h.used (o := .vnode d) hd).ne
  unfold Ramfs.vfsAddDirent
  rw [if_neg (by simp [hd0, hnew.used.ne]), if_neg (by simp [hdir]),
    if_neg (by simpa using (h.lookup_eq_zero hd hdir).mpr hlookup)]
  rcases s.alloc_spec bits with ⟨free, halloc, hmono⟩ |
    ⟨de, hde, hdeAligned, hdeBound, hdeFree, halloc⟩
  · simp only [halloc]
    exact .inl ⟨free, rfl, hmono⟩
  cases de with
  | zero => exact absurd rfl hde
  | succ m =>
  simp only [halloc]
  refine .inr ⟨_, m + 1, rfl,
    h.hang hbits hnew hd hdir hno hde hdeAligned hdeBound hdeFree, ?_, hdeFree, rfl⟩
  exact ⟨fun _ hi => Memory.update_used hi _, fun _ _ => rfl, fun _ _ => rfl⟩

end

/-- Freeing a vnode without cached pages gives back its two frames. -/
theorem vfsFreeVnode_eq (hvp : vp ≠ 0) (hip : s.vData vp ≠ 0)
    (hcache : s.cacheList (s.vData vp) = 0) :
    vfsFreeVnode bits s vp = (s.release bits (s.vData vp)).release bits vp := by
  simp [vfsFreeVnode, hvp, hip, hcache, freeCache]

theorem SameTree.trans (h : SameTree s s' nodes kids) (h' : SameTree s' s'' nodes kids) :
    SameTree s s'' nodes kids where
  root := h'.root.trans h.root
  vType := fun v hv => (h'.vType v hv).trans (h.vType v hv)
  vData := fun v hv => (h'.vData v hv).trans (h.vData v hv)
  vParent := fun v hv => (h'.vParent v hv).trans (h.vParent v hv)
  vChildren := fun v hv => (h'.vChildren v hv).trans (h.vChildren v hv)
  vNchildren := fun v hv => (h'.vNchildren v hv).trans (h.vNchildren v hv)
  iRefcount := fun v hv => by
    have hdata := h.vData v hv
    rw [← hdata, h'.iRefcount v hv, hdata, h.iRefcount v hv]
  cacheList := fun v hv => by
    have hdata := h.vData v hv
    rw [← hdata, h'.cacheList v hv, hdata, h.cacheList v hv]
  ents := fun v e hv he => (h'.ents v e hv he).trans (h.ents v e hv he)

/-- If no entry has the name, none has the part of the name that is stored. -/
def FreshName (bits : ℕ) (s : Fs) (d : ℕ) (name : CStr) : Prop :=
  vfsLookupRamfs bits s d name = 0 → vfsLookupRamfs bits s d (name.take 63) = 0

/-- `vfs_create_file` and `vfs_mkdir_ramfs` add a vnode to the tree, or keep the tree. -/
theorem Tree.createIn (h : Tree bits s nodes kids) (hbits : bits ≤ 2 ^ 23) (type : VType)
    (hd : nodes d) (hname : FreshName bits s d name) :
    (∃ s', Ramfs.createIn bits s type d name = (s', 0) ∧ Tree bits s' nodes kids ∧
        SameTree s s' nodes kids ∧ Keeps s s') ∨
      ∃ s' vp de, Ramfs.createIn bits s type d name = (s', vp) ∧ vp ≠ 0 ∧
        Tree bits s' (fun v => nodes v ∨ v = vp) (addKid kids d de vp) ∧ Keeps s s' ∧
        s.free (vp / 4096) = true ∧ s.free (s'.vData vp / 4096) = true ∧
        s.free (de / 4096) = true := by
  have hkeep : SameTree s s nodes kids ∧ Keeps s s :=
    ⟨SameTree.of_free s s.free nodes kids, Keeps.of_free fun _ hi => hi⟩
  unfold Ramfs.createIn
  by_cases hdir : s.vType d = .vdir
  swap
  · rw [if_pos (.inr hdir)]
    exact .inl ⟨s, rfl, h, hkeep⟩
  have hd0 : d ≠ 0 := (h.used (o := .vnode d) hd).ne
  rw [if_neg (by simp [hd0, hdir])]
  by_cases hlookup : vfsLookupRamfs bits s d name = 0
  swap
  · rw [if_pos hlookup]
    exact .inl ⟨s, rfl, h, hkeep⟩
  rw [if_neg (by simpa using hlookup)]
  rcases h.vfsCreateVnode type with ⟨free, hcreate, htree, hkeeps⟩ |
    ⟨s₁, vp, hvp, hcreate, htree, hnew, hsame, hkeeps, hvpFree, hipFree⟩
  · simp only [hcreate]
    exact .inl ⟨_, rfl, htree, SameTree.of_free s free nodes kids, hkeeps⟩
  cases vp with
  | zero => exact absurd rfl hvp
  | succ m =>
  simp only [hcreate]
  have hkeepNo : ∀ {n}, vfsLookupRamfs bits s d n = 0 → ∀ e ∈ kids d, ¬ Named s₁ e n :=
    fun hn e he hne => (h.lookup_eq_zero hd hdir).mp hn e he
      ((named_iff_of_ents (hsame.ents d e hd he)).mp hne)
  rcases htree.vfsAddDirent hbits hnew hd ((hsame.vType d hd).trans hdir) (hkeepNo hlookup)
    (hkeepNo (hname hlookup)) with
    ⟨free, hadd, hmono⟩ | ⟨s₂, de, hadd, htree₂, hkeeps₂, hdeFree, hdata⟩
  · simp only [hadd]
    have hfreed : vfsFreeVnode bits { s₁ with free := free } (m + 1) =
        ({ s₁ with free := free }.release bits (s₁.vData (m + 1))).release bits (m + 1) :=
      vfsFreeVnode_eq hvp hnew.usedInode.ne hnew.cacheList
    refine .inl ⟨_, rfl, ?_, ?_⟩
    · rw [hfreed]
      refine htree.of_same (SameTree.of_free _ _ _ _) fun o ho => ?_
      have hused : InUse bits { s₁ with free := free } (o.addr s₁) := (htree.used ho).mono hmono
      exact (hused.release (hnew.freshInode o ho) hnew.usedInode.aligned).release
        (hnew.fresh o ho) hnew.used.aligned
    · rw [hfreed]
      exact ⟨hsame.trans (SameTree.of_free _ _ _ _),
        ((hkeeps.trans (Keeps.of_free hmono)).release hipFree).release hvpFree⟩
  · simp only [hadd]
    exact .inr ⟨s₂, m + 1, de, rfl, hvp, htree₂, hkeeps.trans hkeeps₂, hvpFree,
      by rw [hdata]; exact hipFree, hkeeps.free_of_free hdeFree⟩

/-! ## Removing -/

section

variable (h : Tree bits s nodes kids) (hd : nodes d) (hkids : kids d = a ++ e :: b)
include h hd hkids

/-- The entries of the tree without the entry between `a` and `b` of `d`. -/
theorem Tree.mem_splice (hv : nodes v) :
    f ∈ update kids d (a ++ b) v ↔ f ∈ kids v ∧ f ≠ e :=
  mem_update_splice hkids (h.listed.nodup hd) fun he =>
    h.listed.apart v d e hv hd he (by simp [hkids])

/-- What belongs to the tree without an entry and its vnode. -/
theorem Tree.live_splice (ho : o.Live (fun v => nodes v ∧ v ≠ t) (update kids d (a ++ b))) :
    o.Live nodes kids ∧ o ≠ .entry e ∧ o ≠ .vnode t ∧ o ≠ .inode t := by
  cases o with
  | vnode v => exact ⟨ho.1, by simp, by simpa using ho.2, by simp⟩
  | inode v => exact ⟨ho.1, by simp, by simp, by simpa using ho.2⟩
  | entry x =>
    obtain ⟨v, hv, hx⟩ := ho
    obtain ⟨hx, hxe⟩ := (h.mem_splice hd hkids hv.1).mp hx
    exact ⟨⟨v, hv.1, hx⟩, by simpa using hxe, by simp, by simp⟩

/-- A vnode without entries leaves the tree with its entry `e`, when the data of the rest
stays. -/
theorem Tree.remove (ht : s.entVnode e = t) (hempty : kids t = [])
    (hlisted : Listed s' (fun v => nodes v ∧ v ≠ t) (update kids d (a ++ b)))
    (hroot : s'.rootVnode = s.rootVnode) (hvType : s'.vType = s.vType) (hvData : s'.vData = s.vData)
    (hvParent : s'.vParent = s.vParent)
    (hinode : ∀ v, nodes v → v ≠ t → s'.iRefcount (s.vData v) = s.iRefcount (s.vData v))
    (hcache : s'.cacheList = s.cacheList) (hents : ∀ x k, k < 72 → s'.ents x k = s.ents x k)
    (hused : ∀ o : Owner, o.Live (fun v => nodes v ∧ v ≠ t) (update kids d (a ++ b)) →
      InUse bits s' (o.addr s)) :
    Tree bits s' (fun v => nodes v ∧ v ≠ t) (update kids d (a ++ b)) := by
  have he : e ∈ kids d := by simp [hkids]
  have hmem : ∀ {v x}, nodes v → (x ∈ update kids d (a ++ b) v ↔ x ∈ kids v ∧ x ≠ e) :=
    fun hv => h.mem_splice hd hkids hv
  have hvnode : ∀ x, s'.entVnode x = s.entVnode x :=
    fun x => entVnode_congr fun k _ hk => hents x k hk
  have hnamed : ∀ {x n}, Named s' x n ↔ Named s x n := fun {x n} =>
    ⟨fun hn => hn.congr fun k hk => (hents x k (by omega)).symm,
      fun hn => hn.congr fun k hk => hents x k (by omega)⟩
  have haddr := Owner.addr_congr hvData
  have hne : ∀ {v x}, nodes v → x ∈ kids v → x ≠ e → s.entVnode x ≠ t := by
    intro v x hv hx hxe heq
    exact hxe (h.once hv hd hx he (heq.trans ht.symm))
  refine ⟨hlisted, ?_, ?_, ?_, ?_, ?_, ?_, ?_, ?_, ?_, ?_, ?_, ?_, ?_, ?_⟩
  · rw [hroot]
    refine ⟨h.root, ?_⟩
    rw [← ht]
    exact (h.notRoot hd he).symm
  · rw [hroot, hvType]
    exact h.rootDir
  · intro v x hv hx
    rw [hvType]
    exact h.dir hv.1 ((hmem hv.1).mp hx).1
  · intro v x hv hx
    obtain ⟨hx, hxe⟩ := (hmem hv.1).mp hx
    rw [hvnode]
    exact ⟨h.child hv.1 hx, hne hv.1 hx hxe⟩
  · intro v x hv hx
    rw [hvnode, hvParent]
    exact h.parent hv.1 ((hmem hv.1).mp hx).1
  · intro v x hv hx
    rw [hvnode, hroot]
    exact h.notRoot hv.1 ((hmem hv.1).mp hx).1
  · intro v w x y hv hw hx hy heq
    rw [hvnode, hvnode] at heq
    exact h.once hv.1 hw.1 ((hmem hv.1).mp hx).1 ((hmem hw.1).mp hy).1 heq
  · intro v x hv hx
    obtain ⟨n, hn⟩ := h.named hv.1 ((hmem hv.1).mp hx).1
    exact ⟨n, hnamed.mpr hn⟩
  · intro v x y n hv hx hy hnx hny
    exact h.distinct hv.1 ((hmem hv.1).mp hx).1 ((hmem hv.1).mp hy).1 (hnamed.mp hnx)
      (hnamed.mp hny)
  · intro v hv
    rw [hroot]
    refine reach_remove ?_ ?_ (h.reach hv.1) hv.2
    · rintro c ⟨-, x, hx, -⟩
      rw [hempty] at hx
      cases hx
    · rintro c c' ⟨hc, x, hx, rfl⟩ hc't
      have hct : c ≠ t := by
        rintro rfl
        rw [hempty] at hx
        cases hx
      refine ⟨⟨hc, hct⟩, x, (hmem hc).mpr ⟨hx, ?_⟩, hvnode x⟩
      rintro rfl
      exact hc't ht
  · intro o ho
    rw [haddr]
    exact hused o ho
  · intro o o' ho ho' heq
    rw [haddr, haddr] at heq
    exact h.inj (h.live_splice hd hkids ho).1 (h.live_splice hd hkids ho').1 heq
  · intro v hv
    rw [hvData, hinode v hv.1 hv.2]
    exact h.refs hv.1
  · intro v hv
    rw [hvData, hcache]
    exact h.cache hv.1

end

/-- What is not a directory with a count above 0 has no entries. -/
theorem Tree.kids_eq_nil (h : Tree bits s nodes kids) (hv : nodes v)
    (hleaf : ¬ (s.vType v = .vdir ∧ 0 < s.vNchildren v)) : kids v = [] := by
  by_contra hne
  obtain ⟨x, hx⟩ := List.exists_mem_of_ne_nil _ hne
  refine hleaf ⟨h.dir hv hx, ?_⟩
  have hlength := List.length_pos_of_mem hx
  rw [h.listed.count v hv]
  omega

/-- The vnodes have inodes of their own. -/
theorem Tree.vData_ne (h : Tree bits s nodes kids) (hv : nodes v) (hw : nodes w) (hne : v ≠ w) :
    s.vData v ≠ s.vData w := by
  intro heq
  have howner : Owner.inode v = Owner.inode w := h.inj hv hw heq
  exact hne (Owner.inode.inj howner)

/-- Taking an entry out, giving back its frame and dropping the reference of its vnode. -/
def Fs.detach (bits : ℕ) (s : Fs) (d : ℕ) (l : Link) (e : ℕ) : Fs :=
  ((s.splice d l (s.entNext e)).release bits e).dropRef (s.vData (s.entVnode e))

section

variable (s : Fs) (d : ℕ) (l : Link)

theorem Fs.vChildren_detach (e v : ℕ) :
    (s.detach bits d l e).vChildren v = (s.splice d l (s.entNext e)).vChildren v := rfl

theorem Fs.vNchildren_detach (e v : ℕ) :
    (s.detach bits d l e).vNchildren v = (s.splice d l (s.entNext e)).vNchildren v := rfl

theorem Fs.ents_detach (e : ℕ) :
    (s.detach bits d l e).ents = (s.store l (s.entNext e)).ents := rfl

theorem Fs.entNext_detach (e v : ℕ) :
    (s.detach bits d l e).entNext v = (s.splice d l (s.entNext e)).entNext v := rfl

theorem Fs.vData_detach (e : ℕ) :
    (s.detach bits d l e).vData = s.vData := rfl

theorem Fs.iRefcount_detach (e : ℕ) :
    (s.detach bits d l e).iRefcount = update s.iRefcount (s.vData (s.entVnode e))
      (decRef (s.iRefcount (s.vData (s.entVnode e)))) := rfl

end

/-- An entry and its vnode without entries leave the tree. -/
theorem Tree.detach (h : Tree bits s nodes kids) (hd : nodes d) (hkids : kids d = a ++ e :: b)
    (hempty : kids (s.entVnode e) = []) :
    Tree bits (s.detach bits d ((Link.head d).after a) e) (fun v => nodes v ∧ v ≠ s.entVnode e)
      (update kids d (a ++ b)) := by
  have he : e ∈ kids d := by simp [hkids]
  have ht := h.child hd he
  have hents : ∀ x k, k < 72 →
      (s.detach bits d ((Link.head d).after a) e).ents x k = s.ents x k :=
    fun x k hk => by rw [Fs.ents_detach, Fs.ents_store _ _ _ _ hk]
  refine h.remove hd hkids rfl hempty ?_ rfl rfl rfl rfl ?_ rfl hents ?_
  · exact (h.listed.splice hd hkids).congr (fun _ hv => hv.1)
      (fun v _ => s.vChildren_detach d _ e v) (fun v _ => s.vNchildren_detach d _ e v)
      fun _ _ x _ => s.entNext_detach d _ e x
  · intro v hv hvt
    rw [Fs.iRefcount_detach, update_of_ne (h.vData_ne hv ht hvt)]
  · intro o ho
    have hlive := h.live_splice hd hkids ho
    have hused : InUse bits (s.splice d ((Link.head d).after a) (s.entNext e)) (o.addr s) :=
      (h.used hlive.1).mono fun _ hi => hi
    have hentry : (Owner.entry e).Live nodes kids := ⟨d, hd, he⟩
    have hreleased := hused.release (fun heq => hlive.2.1 (h.inj hlive.1 hentry heq))
      (h.entry_used hd he).aligned
    exact hreleased.mono fun _ hi => hi

theorem Fs.vData_release_splice (s : Fs) (d : ℕ) (l : Link) (e a v : ℕ) :
    ((s.splice d l a).release bits e).vData v = s.vData v := rfl

/-- The state after `vfs_unlink` of the entry at a link. -/
def Fs.unlinked (bits : ℕ) (s : Fs) (d : ℕ) (l : Link) (e : ℕ) : Fs :=
  ((s.detach bits d l e).release bits (s.vData (s.entVnode e))).release bits (s.entVnode e)

theorem Fs.vData_release (s : Fs) (a : ℕ) : (s.release bits a).vData = s.vData := rfl

theorem Fs.vData_unlinked (s : Fs) (d : ℕ) (l : Link) (e : ℕ) :
    (s.unlinked bits d l e).vData = s.vData := by
  rw [unlinked, vData_release, vData_release, vData_detach]

/-- `vfs_unlink` fails without a change, or frees an entry and a vnode without entries. -/
theorem Tree.vfsUnlink_eq (h : Tree bits s nodes kids) (hd : nodes d) (name : CStr) :
    vfsUnlink bits s d name = (s, -1) ∨
      ∃ a e b, kids d = a ++ e :: b ∧ Named s e name ∧ kids (s.entVnode e) = [] ∧
        vfsUnlink bits s d name = (s.unlinked bits d ((Link.head d).after a) e, 0) := by
  unfold vfsUnlink
  split_ifs with hparent
  · exact .inl rfl
  rcases h.findLink hd name with ⟨hnone, -⟩ | ⟨a, e, b, hkids, hn, hsome, hload⟩
  · rw [hnone]
    exact .inl rfl
  rw [hsome]
  dsimp only
  rw [hload]
  have he : e ∈ kids d := by simp [hkids]
  have ht := h.child hd he
  by_cases hfull : s.vType (s.entVnode e) = .vdir ∧ 0 < s.vNchildren (s.entVnode e)
  · rw [if_pos hfull]
    exact .inl rfl
  refine .inr ⟨a, e, b, hkids, hn, h.kids_eq_nil ht hfull, ?_⟩
  have hip : s.vData (s.entVnode e) ≠ 0 := (h.used (o := .inode _) ht).ne
  have hcount : (s.detach bits d ((Link.head d).after a) e).iRefcount
      (s.vData (s.entVnode e)) = 0 := by
    rw [Fs.iRefcount_detach, update_self, h.refs ht]
    rfl
  have hfree : vfsFreeVnode bits (s.detach bits d ((Link.head d).after a) e) (s.entVnode e) =
      s.unlinked bits d ((Link.head d).after a) e :=
    vfsFreeVnode_eq (h.used (o := .vnode _) ht).ne hip (h.cache ht)
  rw [if_neg hfull, Fs.vData_release_splice, if_neg hip, ← Fs.detach, if_pos hcount, hfree]

/-- The tree after `vfs_unlink`. -/
theorem Tree.unlinked (h : Tree bits s nodes kids) (hd : nodes d) (hkids : kids d = a ++ e :: b)
    (hempty : kids (s.entVnode e) = []) :
    Tree bits (s.unlinked bits d ((Link.head d).after a) e) (fun v => nodes v ∧ v ≠ s.entVnode e)
      (update kids d (a ++ b)) := by
  have he : e ∈ kids d := by simp [hkids]
  have ht := h.child hd he
  have hdetach := h.detach hd hkids hempty
  refine hdetach.of_same (SameTree.of_free _ _ _ _) fun o ho => ?_
  have hlive := h.live_splice hd hkids ho
  have hnode : (Owner.vnode (s.entVnode e)).Live nodes kids := ht
  have hinode : (Owner.inode (s.entVnode e)).Live nodes kids := ht
  have haddr : o.addr (s.detach bits d ((Link.head d).after a) e) = o.addr s :=
    o.addr_congr (s.vData_detach d _ e)
  have hused := hdetach.used ho
  rw [haddr] at hused ⊢
  refine (hused.release ?_ (h.used hinode).aligned).release ?_ (h.used hnode).aligned
  · exact fun heq => hlive.2.2.2 (h.inj hlive.1 hinode heq)
  · exact fun heq => hlive.2.2.1 (h.inj hlive.1 hnode heq)

end Tomahawk.Ramfs
