import Tomahawk.Ramfs.Rename

/-!
# The shape of the ramfs tree

Sequences of `create`, `mkdir`, `unlink` and `rename` in directories found from the root, and
what the tree looks like in every state they reach.
-/

namespace Tomahawk.Ramfs

open Function Tomahawk.Lib Relation

variable {s : Fs} {bits : ℕ} {d e v c : ℕ} {nodes : ℕ → Prop} {kids : ℕ → List ℕ} {name : CStr}

/-- `vfs_init`: the root directory. -/
def Fs.vfsInit (bits : ℕ) (s : Fs) : Fs :=
  let (s, root) := vfsCreateVnode bits s .vdir
  { s with rootVnode := root }

/-- The vnode that a path leads to, by one lookup a component, or 0. -/
def resolve (bits : ℕ) (s : Fs) : ℕ → List CStr → ℕ
  | v, [] => v
  | v, name :: path => resolve bits s (vfsLookupRamfs bits s v name) path

/-- The calls that change the tree. A directory is given by its path. -/
inductive FsOp where
  | create (path : List CStr) (name : CStr)
  | mkdir (path : List CStr) (name : CStr)
  | unlink (path : List CStr) (name : CStr)
  | rename (oldPath : List CStr) (oldName : CStr) (newPath : List CStr) (newName : CStr)

/-- The file system with the vnodes that calls have made and not removed since. -/
structure FsRun where
  fs : Fs
  live : List ℕ

/-- The state after `vfs_init`. -/
def FsRun.init (bits : ℕ) (s : Fs) : FsRun :=
  let s := s.vfsInit bits
  ⟨s, if s.rootVnode = 0 then [] else [s.rootVnode]⟩

/-- The directory at a path from the root, or 0. -/
def FsRun.dir (bits : ℕ) (t : FsRun) (path : List CStr) : ℕ :=
  resolve bits t.fs t.fs.rootVnode path

/-- The vnode that a call made, unless it failed. -/
def FsRun.made (t : FsRun) : Fs × ℕ → FsRun
  | (s, vp) => ⟨s, if vp = 0 then t.live else vp :: t.live⟩

/-- The vnode `v` that a call removed, unless it failed. -/
def FsRun.removed (t : FsRun) (v : ℕ) : Fs × ℤ → FsRun
  | (s, r) => ⟨s, if r = 0 then t.live.filter (· ≠ v) else t.live⟩

/-- The state after a call. A rename removes what had the new name. -/
def fsStep (bits : ℕ) (t : FsRun) : FsOp → FsRun
  | .create path name => t.made (vfsCreateFile bits t.fs (t.dir bits path) name)
  | .mkdir path name => t.made (vfsMkdirRamfs bits t.fs (t.dir bits path) name)
  | .unlink path name =>
    t.removed (vfsLookupRamfs bits t.fs (t.dir bits path) name)
      (vfsUnlink bits t.fs (t.dir bits path) name)
  | .rename oldPath oldName newPath newName =>
    t.removed (vfsLookupRamfs bits t.fs (t.dir bits newPath) newName)
      (vfsRename bits t.fs (t.dir bits oldPath) oldName (t.dir bits newPath) newName)

/-- The calls that keep the shape: a new name is not cut to one that is taken, and a rename
meets `RenameMeets`. -/
def FsMeets (bits : ℕ) (t : FsRun) : FsOp → Prop
  | .create path name => FreshName bits t.fs (t.dir bits path) name
  | .mkdir path name => FreshName bits t.fs (t.dir bits path) name
  | .unlink _ _ => True
  | .rename oldPath oldName newPath newName =>
    RenameMeets bits t.fs (t.dir bits oldPath) oldName (t.dir bits newPath) newName

instance (bits : ℕ) (s : Fs) (d : ℕ) (name : CStr) : Decidable (FreshName bits s d name) := by
  unfold FreshName
  infer_instance

instance (bits : ℕ) (s : Fs) (op : ℕ) (oldName : CStr) (np : ℕ) (newName : CStr) :
    Decidable (RenameMeets bits s op oldName np newName) := by
  unfold RenameMeets
  infer_instance

instance (bits : ℕ) (t : FsRun) (op : FsOp) : Decidable (FsMeets bits t op) := by
  cases op <;> unfold FsMeets <;> infer_instance

variable {t : FsRun} {live L : List ℕ} {l : Link}

/-! ## Well-formed states -/

/-- The vnode is listed in a directory. -/
def Fs.Child (s : Fs) (d c : ℕ) : Prop :=
  ∃ L, s.IsListAt (.head d) L ∧ ∃ e ∈ L, s.entVnode e = c

/-- The vnode is in the tree: there is a root, and entries lead from it to the vnode. -/
def Fs.Reached (s : Fs) (v : ℕ) : Prop :=
  s.rootVnode ≠ 0 ∧ ReflTransGen s.Child s.rootVnode v

/-- A vnode of the tree has the list `L` of entries: finite, of the counted length, with
names that differ, and every listed vnode has it as its parent. -/
structure DirOk (s : Fs) (v : ℕ) (L : List ℕ) : Prop where
  list : s.IsListAt (.head v) L
  nodup : L.Nodup
  count : s.vNchildren v = L.length
  names : ∀ e ∈ L, ∀ f ∈ L, ∀ n, s.nameEq e n = true → s.nameEq f n = true → e = f
  parent : ∀ e ∈ L, s.vParent (s.entVnode e) = v
  dir : L ≠ [] → s.vType v = .vdir

/-- The tree below the root: it holds what was made and not removed, every vnode has a proper
list of entries, the root is listed nowhere, every other vnode once, and there is no cycle. -/
structure WellFormed (t : FsRun) : Prop where
  reached : ∀ v, t.fs.Reached v ↔ v ∈ t.live
  dirs : ∀ v, t.fs.Reached v → ∃ L, DirOk t.fs v L
  root : ∀ d, t.fs.Reached d → ¬ t.fs.Child d t.fs.rootVnode
  once : ∀ d d' L L' e e', t.fs.Reached d → t.fs.Reached d' → t.fs.IsListAt (.head d) L →
    t.fs.IsListAt (.head d') L' → e ∈ L → e' ∈ L' → t.fs.entVnode e = t.fs.entVnode e' →
    d = d' ∧ e = e'
  acyclic : ∀ v, t.fs.Reached v → ¬ TransGen t.fs.Child v v

/-- A directory of the tree lists its entries. -/
theorem Tree.child_iff (h : Tree bits s nodes kids) (hd : nodes d) :
    s.Child d c ↔ Edge s nodes kids d c := by
  have hlist := h.listed.list d hd
  constructor
  · rintro ⟨L, hL, e, he, hc⟩
    obtain rfl := IsList.unique hL hlist
    exact ⟨hd, e, he, hc⟩
  · rintro ⟨-, e, he, hc⟩
    exact ⟨_, hlist, e, he, hc⟩

/-- What is reached from a vnode of the tree is in the tree, along its edges. -/
theorem Tree.edge_of_child (h : Tree bits s nodes kids) (hd : nodes d)
    (hreach : ReflTransGen s.Child d c) : nodes c ∧ ReflTransGen (Edge s nodes kids) d c := by
  induction hreach with
  | refl => exact ⟨hd, .refl⟩
  | tail _ hchild ih =>
    have hedge := (h.child_iff ih.1).mp hchild
    obtain ⟨hb, e, he, rfl⟩ := hedge
    exact ⟨h.child hb he, ih.2.tail ⟨hb, e, he, rfl⟩⟩

/-- The vnodes of the tree are those reached from the root. -/
theorem Tree.reached_iff (h : Tree bits s nodes kids) : s.Reached v ↔ nodes v := by
  constructor
  · exact fun hv => (h.edge_of_child h.root hv.2).1
  · intro hv
    refine ⟨(h.used (o := .vnode _) h.root).ne, ReflTransGen.mono ?_ _ _ (h.reach hv)⟩
    exact fun _ _ hedge => (h.child_iff hedge.1).mpr hedge

/-- The directories and files of a tree are well formed. -/
theorem Tree.wellFormed (h : Tree bits t.fs (· ∈ t.live) kids) : WellFormed t := by
  have hnodes : ∀ {v}, t.fs.Reached v → v ∈ t.live := fun hv => h.reached_iff.mp hv
  have hkids : ∀ {v L}, v ∈ t.live → t.fs.IsListAt (.head v) L → L = kids v := fun hv hL =>
    IsList.unique hL (h.listed.list _ hv)
  have hmatch : ∀ {v e n}, v ∈ t.live → e ∈ kids v → t.fs.nameEq e n = true → Named t.fs e n := by
    intro v e n hv he hn
    obtain ⟨m, hm⟩ := h.named hv he
    obtain rfl := hm.nameEq_iff.mp hn
    exact hm
  refine ⟨fun v => h.reached_iff, fun v hv => ⟨kids v, ?_⟩, ?_, ?_, ?_⟩
  · have hv := hnodes hv
    refine ⟨h.listed.list v hv, h.listed.nodup hv, h.listed.count v hv, ?_,
      fun e he => h.parent hv he, ?_⟩
    · intro e he f hf n hne hnf
      exact h.distinct hv he hf (hmatch hv he hne) (hmatch hv hf hnf)
    · intro hne
      obtain ⟨e, he⟩ := List.exists_mem_of_ne_nil _ hne
      exact h.dir hv he
  · intro d hd hchild
    obtain ⟨hd, e, he, heq⟩ := (h.child_iff (hnodes hd)).mp hchild
    exact h.notRoot hd he heq
  · intro d d' L L' e e' hd hd' hL hL' he he' heq
    obtain rfl := hkids (hnodes hd) hL
    obtain rfl := hkids (hnodes hd') hL'
    obtain rfl := h.once (hnodes hd) (hnodes hd') he he' heq
    exact ⟨h.listed.apart d d' e (hnodes hd) (hnodes hd') he he', rfl⟩
  · intro v hv hcycle
    have hedges : TransGen (Edge t.fs (· ∈ t.live) kids) v v := by
      obtain ⟨w, hpath, hchild⟩ := TransGen.tail'_iff.mp hcycle
      obtain ⟨hw, hpath⟩ := h.edge_of_child (hnodes hv) hpath
      exact TransGen.tail' hpath ((h.child_iff hw).mp hchild)
    refine acyclic_of_reach ?_ ?_ (h.reach (hnodes hv)) hedges
    · rintro d ⟨hd, e, he, heq⟩
      exact h.notRoot hd he heq
    · rintro d d' c ⟨hd, e, he, rfl⟩ ⟨hd', e', he', heq⟩
      obtain rfl := h.once hd' hd he' he heq
      exact h.listed.apart d d' _ hd hd' he he'

/-! ## Every state of a run -/

/-- What holds in every state: there is no root, or the live vnodes are a tree below it. -/
def HasTree (bits : ℕ) (t : FsRun) : Prop :=
  (t.fs.rootVnode = 0 ∧ t.live = []) ∨ ∃ kids, Tree bits t.fs (· ∈ t.live) kids

theorem HasTree.wellFormed (h : HasTree bits t) : WellFormed t := by
  rcases h with ⟨hroot, hlive⟩ | ⟨kids, htree⟩
  · refine ⟨fun v => ⟨fun hv => absurd hroot hv.1, fun hv => ?_⟩, fun _ hv => absurd hroot hv.1,
      fun _ hv => absurd hroot hv.1, fun _ _ _ _ _ _ hv => absurd hroot hv.1,
      fun _ hv => absurd hroot hv.1⟩
    rw [hlive] at hv
    cases hv
  · exact htree.wellFormed

/-- A lookup in the tree stays in it. -/
theorem Tree.lookup (h : Tree bits s nodes kids) (hv : v = 0 ∨ nodes v) (name : CStr) :
    vfsLookupRamfs bits s v name = 0 ∨ nodes (vfsLookupRamfs bits s v name) := by
  unfold vfsLookupRamfs
  split_ifs with hdir
  · exact .inl rfl
  rw [not_or] at hdir
  have hv := hv.resolve_left hdir.1
  rcases h.findLink hv name with ⟨hnone, -⟩ | ⟨a, e, b, hkids, -, hsome, hload⟩
  · rw [hnone]
    exact .inl rfl
  · rw [hsome]
    dsimp only
    rw [hload]
    exact .inr (h.child hv (by simp [hkids]))

/-- A path leads to a vnode of the tree, or nowhere. -/
theorem Tree.resolve (h : Tree bits s nodes kids) (hv : v = 0 ∨ nodes v) (path : List CStr) :
    Ramfs.resolve bits s v path = 0 ∨ nodes (Ramfs.resolve bits s v path) := by
  induction path generalizing v with
  | nil => exact hv
  | cons name path ih => exact ih (h.lookup hv name)

/-- The tree of a new root. -/
theorem hasTree_init (bits : ℕ) (s : Fs) : HasTree bits (FsRun.init bits s) := by
  unfold FsRun.init Fs.vfsInit
  rcases vfsCreateVnode_spec bits s .vdir with ⟨free, hcreate, -⟩ | ⟨vp, ip, free, hframes, hcreate⟩
  · rw [hcreate]
    exact .inl ⟨rfl, rfl⟩
  rw [hcreate]
  dsimp only
  rw [if_neg hframes.used.ne]
  refine .inr ⟨fun _ => [], ?_⟩
  have hnodes : (· ∈ [vp]) = (· = vp) := by
    funext v
    exact propext List.mem_singleton
  rw [hnodes]
  have hdata : update s.vData vp ip vp = ip := update_self _ _ _
  have hused : InUse bits { s with free := free } vp := hframes.used
  have husedInode : InUse bits { s with free := free } (update s.vData vp ip vp) := by
    rw [hdata]
    exact hframes.usedInode
  have hlive : ∀ {o : Owner}, o.Live (· = vp) (fun _ => []) → o = .vnode vp ∨ o = .inode vp := by
    rintro (_ | _ | _) ho <;> simp [Owner.Live] at ho ⊢ <;> exact ho
  refine ⟨⟨?_, ?_, by simp⟩, rfl, update_self _ _ _, by simp, by simp, by simp, by simp,
    by simp, by simp, by simp, ?_, ?_, ?_, ?_, ?_⟩
  · rintro v rfl
    exact ptr_eq_none.mpr (update_self _ _ _)
  · rintro v rfl
    exact update_self _ _ _
  · rintro v rfl
    exact .refl
  · intro o ho
    rcases hlive ho with rfl | rfl
    · exact hused.mono fun _ hi => hi
    · exact husedInode.mono fun _ hi => hi
  · intro o o' ho ho' heq
    rcases hlive ho with rfl | rfl <;> rcases hlive ho' with rfl | rfl
    · rfl
    · exact absurd (heq.trans hdata) hframes.ne
    · exact absurd (heq.symm.trans hdata) hframes.ne
    · rfl
  · rintro v rfl
    exact (congrArg _ hdata).trans (update_self _ _ _)
  · rintro v rfl
    exact (congrArg _ hdata).trans (update_self _ _ _)

/-- Without a root no path leads anywhere. -/
theorem resolve_zero (bits : ℕ) (s : Fs) (path : List CStr) : resolve bits s 0 path = 0 := by
  induction path with
  | nil => rfl
  | cons name path ih => simpa [resolve, vfsLookupRamfs] using ih

theorem mem_filter_ne : (v ∈ live ∧ v ≠ c) ↔ v ∈ live.filter (· ≠ c) := by simp

/-- Without a root every call fails. -/
theorem fsStep_of_root_eq_zero (hroot : t.fs.rootVnode = 0) (op : FsOp) :
    fsStep bits t op = t := by
  have hdir : ∀ path, t.dir bits path = 0 := fun path => by
    rw [FsRun.dir, hroot, resolve_zero]
  cases op <;>
    simp [fsStep, FsRun.made, FsRun.removed, hdir, vfsCreateFile, vfsMkdirRamfs, createIn,
      vfsUnlink, vfsRename]

/-- Memory before `vfs_init`: every frame but the first is free. -/
def blankFs : Fs where
  free := fun i => decide (0 < i)
  vType := fun _ => .vnon
  vData := fun _ => 0
  vParent := fun _ => 0
  vChildren := fun _ => 0
  vNchildren := fun _ => 0
  iRefcount := fun _ => 0
  cacheList := fun _ => 0
  physicalAddr := fun _ => 0
  cacheNext := fun _ => 0
  ents := fun _ _ => 0
  rootVnode := 0

/-- `"a"` -/
def fileA : CStr := ⟨[97], by decide⟩

/-- `"b"` -/
def fileB : CStr := ⟨[98], by decide⟩

/-- `"d"` -/
def dirD : CStr := ⟨[100], by decide⟩

/-! ## Runs that break the tree -/

/-- A list does not start with an entry that links to itself. -/
theorem Fs.IsListAt.next_ne (h : s.IsListAt l L) (hne : s.load l ≠ 0) :
    s.entNext (s.load l) ≠ s.load l := by
  intro heq
  have hlist : IsList s.nextPtr (ptr (s.load l)) L := h
  cases L with
  | nil => exact hne (ptr_eq_none.mp h)
  | cons e L =>
    obtain ⟨rfl, -, htail⟩ := h.tail
    have htail : IsList s.nextPtr (ptr (s.entNext (s.load l))) L := htail
    rw [heq] at htail
    have hlength := congrArg List.length (IsList.unique htail hlist)
    simp at hlength

/-- The first two entries of a list. -/
theorem Fs.IsListAt.mem_first (h : s.IsListAt l L) (hne : s.load l ≠ 0) :
    s.load l ∈ L ∧ (s.entNext (s.load l) ≠ 0 → s.entNext (s.load l) ∈ L) := by
  cases L with
  | nil => exact absurd (ptr_eq_none.mp h) hne
  | cons e L =>
    obtain ⟨rfl, -, htail⟩ := h.tail
    refine ⟨by simp, fun hnext => ?_⟩
    cases L with
    | nil => exact absurd (ptr_eq_none.mp htail) hnext
    | cons f L =>
      have hf : s.entNext (s.load l) = f := htail.tail.1
      simp [hf]

/-- A vnode that differs from the root is not reached from a root without entries. -/
theorem Fs.not_reached (hhead : s.vChildren s.rootVnode = 0) (hv : v ≠ s.rootVnode) :
    ¬ s.Reached v := by
  rintro ⟨-, hreach⟩
  rcases ReflTransGen.cases_head hreach with rfl | ⟨c, ⟨L, hL, e, he, -⟩, -⟩
  · exact hv rfl
  · have hnil : L = [] := IsList.unique hL (ptr_eq_none.mpr hhead)
    rw [hnil] at he
    cases he

/-- A name of `k` letters `x` and one more letter. -/
def longName (k : ℕ) (c : UInt8) (hc : c ≠ 0) : CStr :=
  ⟨List.replicate k 120 ++ [c], by simpa [List.mem_replicate] using hc.symm⟩

/-- Five runs that break the tree. Renaming a file to the name of the entry just before it frees
the entry that holds the link to the file, so the file stays in the list and is put in front of
itself. Renaming a file to its own name counts its entry twice. A directory moved into itself is
lost. Two names with the same first 63 bytes become one. A new name of 70 bytes runs over the
vnode of the entry. -/
theorem ramfs_tree_broken :
    (¬ WellFormed (run (fsStep 16) (FsRun.init 16 blankFs)
      [.create [] fileA, .create [] fileB, .rename [] fileA [] fileB])) ∧
    (¬ WellFormed (run (fsStep 16) (FsRun.init 16 blankFs)
      [.create [] fileA, .rename [] fileA [] fileA])) ∧
    (¬ WellFormed (run (fsStep 16) (FsRun.init 16 blankFs)
      [.mkdir [] dirD, .rename [] dirD [dirD] fileA])) ∧
    (¬ WellFormed (run (fsStep 16) (FsRun.init 16 blankFs)
      [.create [] (longName 63 97 (by decide)), .create [] (longName 63 98 (by decide))])) ∧
    ¬ WellFormed (run (fsStep 16) (FsRun.init 16 blankFs)
      [.create [] fileA, .rename [] fileA [] (longName 69 97 (by decide))]) := by
  refine ⟨fun h => ?_, fun h => ?_, fun h => ?_, fun h => ?_, fun h => ?_⟩
  · obtain ⟨L, hdir⟩ := h.dirs _ ⟨by decide +kernel, .refl⟩
    exact hdir.list.next_ne (by decide +kernel) (by decide +kernel)
  · obtain ⟨L, hdir⟩ := h.dirs _ ⟨by decide +kernel, .refl⟩
    have hmem := (hdir.list.mem_first (by decide +kernel)).1
    have hcount := hdir.count
    rw [show Fs.vNchildren _ _ = 0 by decide +kernel] at hcount
    have hpos := List.length_pos_of_mem hmem
    omega
  · refine Fs.not_reached (v := 3 * 4096) ?_ ?_ ((h.reached _).mpr ?_)
    · decide +kernel
    · decide +kernel
    · decide +kernel
  · obtain ⟨L, hdir⟩ := h.dirs _ ⟨by decide +kernel, .refl⟩
    have hmem := hdir.list.mem_first (by decide +kernel)
    have heq := hdir.names _ hmem.1 _ (hmem.2 (by decide +kernel)) (longName 62 120 (by decide))
      (by decide +kernel) (by decide +kernel)
    exact absurd heq (by decide +kernel)
  · obtain ⟨L, hdir⟩ := h.dirs _ ⟨by decide +kernel, .refl⟩
    have hmem := (hdir.list.mem_first (by decide +kernel)).1
    exact absurd (hdir.parent _ hmem) (by decide +kernel)

end Tomahawk.Ramfs
