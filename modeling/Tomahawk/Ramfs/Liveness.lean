import Tomahawk.Ramfs.Shape
import Tomahawk.Proc.OpenFiles

/-!
# Which vnodes are in use

The tree together with the open files of all processes, and when the frame of a vnode is
given back. A vnode has one reference, that of its directory entry: opening a file takes
none, and `vfs_close` drops it.
-/

namespace Tomahawk.Ramfs

open Function Tomahawk.Lib Tomahawk.Proc Relation

/-- What the field `f_vnode` of an open file points at. -/
inductive FileVnode where
  | tty
  | ramfs (vp : ℕ)
  deriving DecidableEq

/-- `vfs_close`. A ramfs vnode has no `vop_close`; writing back dirty blocks leaves the vnodes
alone. -/
def vfsClose (bits : ℕ) (s : Fs) (vp : ℕ) : Fs × ℤ :=
  if vp = 0 then (s, -1)
  else
    let ip := s.vData vp
    if ip = 0 then (s, 0)
    else
      let s := s.dropRef ip
      (if s.iRefcount ip = 0 then vfsFreeVnode bits s vp else s, 0)

/-- The file system, the vnodes that left the tree and keep their frames, and the open files
of `n` processes. -/
structure VnodeRun (n : ℕ) extends FsRun where
  lost : List ℕ
  files : Files n FileVnode

/-- The calls. A lookup returns a vnode and changes nothing. -/
inductive VnodeOp (n : ℕ) where
  | tree (op : FsOp)
  | lookup (path : List CStr) (name : CStr)
  | vfsClose (vp : ℕ)
  | sysOpen (p : Fin n) (path : List CStr) (flags : ℕ)
  | sysClose (p : Fin n) (fd : ℤ)

variable {n : ℕ}

/-- The state after `vfs_init`, with the console open in every process. -/
def VnodeRun.init (n bits : ℕ) (s : Fs) : VnodeRun n :=
  { FsRun.init bits s with lost := [], files := Files.boot n .tty }

/-- The vnode that a rename takes out of the tree. It keeps its frame. -/
def FsRun.displaced (bits : ℕ) (t : FsRun) : FsOp → List ℕ
  | .rename oldPath oldName newPath newName =>
    let existing := vfsLookupRamfs bits t.fs (t.dir bits newPath) newName
    if (vfsRename bits t.fs (t.dir bits oldPath) oldName (t.dir bits newPath) newName).2 = 0 ∧
      existing ≠ 0 then [existing] else []
  | _ => []

/-- Whether `vfs_close` drops the last reference. -/
def lastRef (s : Fs) (vp : ℕ) : Prop := s.vData vp ≠ 0 ∧ decRef (s.iRefcount (s.vData vp)) = 0

instance (s : Fs) (vp : ℕ) : Decidable (lastRef s vp) := by
  unfold lastRef
  infer_instance

/-- The state after a call. -/
def vnodeStep (bits : ℕ) (t : VnodeRun n) : VnodeOp n → VnodeRun n
  | .tree op =>
    { fsStep bits t.toFsRun op with
      lost := t.toFsRun.displaced bits op ++ t.lost
      files := t.files }
  | .lookup _ _ => t
  | .vfsClose vp =>
    { t with
      fs := (vfsClose bits t.fs vp).1
      lost := if lastRef t.fs vp then t.lost.filter (· ≠ vp) else t.lost }
  | .sysOpen p path flags =>
    let vp := t.dir bits path
    if vp = 0 then t
    else { t with files := (sysOpen t.files p (.ramfs vp) flags).1 }
  | .sysClose p fd => { t with files := (fdClose t.files p fd).1 }

/-- The calls that free no vnode in use: those on the tree meet `FsMeets` and remove no vnode
that is open, and `vfs_close` is called on vnodes that left the tree, for the last time when no
descriptor refers to them. -/
def VnodeMeets (bits : ℕ) (t : VnodeRun n) : VnodeOp n → Prop
  | .tree op => FsMeets bits t.toFsRun op ∧
    match op with
    | .unlink path name =>
      (vfsUnlink bits t.fs (t.dir bits path) name).2 = 0 →
        ¬ t.files.Refers (.ramfs (vfsLookupRamfs bits t.fs (t.dir bits path) name))
    | _ => True
  | .vfsClose vp => vp = 0 ∨ vp ∈ t.lost ∧ (lastRef t.fs vp → ¬ t.files.Refers (.ramfs vp))
  | _ => True

instance (bits : ℕ) (t : VnodeRun n) (op : VnodeOp n) : Decidable (VnodeMeets bits t op) := by
  unfold VnodeMeets
  induction op using VnodeOp.casesOn with
  | tree op => induction op using FsOp.casesOn <;> infer_instance
  | _ => infer_instance

/-- An entry of the tree or a descriptor refers to the vnode. -/
def VnodeRun.Refers (t : VnodeRun n) (v : ℕ) : Prop :=
  (∃ d, t.fs.Reached d ∧ t.fs.Child d v) ∨ t.files.Refers (.ramfs v)

/-! ## Vnodes that left the tree -/

/-- The vnodes that left the tree, without entries, have frames of their own. -/
structure Lost (bits : ℕ) (s : Fs) (nodes : ℕ → Prop) (kids : ℕ → List ℕ) (lost : List ℕ) :
    Prop where
  used : ∀ {o : Owner}, o.Live (· ∈ lost) (fun _ => []) → InUse bits s (o.addr s)
  fresh : ∀ {o o' : Owner}, o.Live (· ∈ lost) (fun _ => []) → o'.Live nodes kids →
    o'.addr s ≠ o.addr s
  inj : ∀ {o o' : Owner}, o.Live (· ∈ lost) (fun _ => []) → o'.Live (· ∈ lost) (fun _ => []) →
    o.addr s = o'.addr s → o = o'
  cache : ∀ v ∈ lost, s.cacheList (s.vData v) = 0

variable {s s' : Fs} {bits : ℕ} {nodes nodes' : ℕ → Prop} {kids kids' : ℕ → List ℕ}
  {lost : List ℕ} {d e v : ℕ} {name : CStr} {x np op t : ℕ} {s₁ : Fs} {l : Link} {newName : CStr}

theorem Owner.Live.of_cons {o : Owner} (ho : o.Live (· ∈ x :: lost) (fun _ => [])) :
    (o = .vnode x ∨ o = .inode x) ∨ o.Live (· ∈ lost) (fun _ => []) := by
  cases o with
  | vnode v => exact (List.mem_cons.mp ho).imp_left fun hv => .inl (by rw [hv])
  | inode v => exact (List.mem_cons.mp ho).imp_left fun hv => .inr (by rw [hv])
  | entry e => exact absurd ho.choose_spec.2 List.not_mem_nil

theorem Lost.nil : Lost bits s nodes kids [] := by
  have hnone : ∀ {o : Owner}, ¬ o.Live (· ∈ []) (fun _ => []) := by
    rintro (_ | _ | _) <;> simp [Owner.Live]
  exact ⟨fun ho => absurd ho hnone, fun ho => absurd ho hnone, fun ho => absurd ho hnone, by simp⟩

section

variable (h : Lost bits s nodes kids lost)
include h

/-- They stay when their frames do and no other owner takes one. -/
theorem Lost.congr {lost' : List ℕ} (hsub : ∀ v ∈ lost', v ∈ lost)
    (hdata : ∀ v ∈ lost', s'.vData v = s.vData v)
    (hcache : ∀ v ∈ lost', s'.cacheList (s.vData v) = s.cacheList (s.vData v))
    (hused : ∀ {o : Owner}, o.Live (· ∈ lost') (fun _ => []) → InUse bits s' (o.addr s))
    (hfresh : ∀ {o o' : Owner}, o.Live (· ∈ lost') (fun _ => []) → o'.Live nodes' kids' →
      o'.addr s' ≠ o.addr s) : Lost bits s' nodes' kids' lost' := by
  have haddr : ∀ {o : Owner}, o.Live (· ∈ lost') (fun _ => []) → o.addr s' = o.addr s := by
    rintro (_ | v | _) ho
    · rfl
    · exact hdata v ho
    · rfl
  have hold : ∀ {o : Owner}, o.Live (· ∈ lost') (fun _ => []) →
      o.Live (· ∈ lost) (fun _ => []) := by
    rintro (v | v | _) ho
    · exact hsub v ho
    · exact hsub v ho
    · exact ho.imp fun v hv => ⟨hsub v hv.1, hv.2⟩
  refine ⟨fun ho => ?_, fun ho ho' => ?_, fun ho ho' heq => ?_, fun v hv => ?_⟩
  · rw [haddr ho]
    exact hused ho
  · rw [haddr ho]
    exact hfresh ho ho'
  · rw [haddr ho, haddr ho'] at heq
    exact h.inj (hold ho) (hold ho') heq
  · rw [hdata v hv, hcache v hv]
    exact h.cache v (hsub v hv)

/-- A vnode that leaves the tree with its frame. -/
theorem Lost.cons (htree : Tree bits s nodes kids) (hx : nodes x)
    (hlive : ∀ o : Owner, o.Live nodes' kids' → o.Live nodes kids ∧ o ≠ .vnode x ∧ o ≠ .inode x) :
    Lost bits s nodes' kids' (x :: lost) := by
  have hcases : ∀ {o : Owner}, o.Live (· ∈ x :: lost) (fun _ => []) →
      o.Live nodes kids ∧ (o = .vnode x ∨ o = .inode x) ∨ o.Live (· ∈ lost) (fun _ => []) := by
    refine fun ho => ho.of_cons.imp_left fun hox => ⟨?_, hox⟩
    rcases hox with rfl | rfl <;> exact hx
  refine ⟨fun ho => ?_, fun {o o'} ho ho' heq => ?_, fun ho ho' heq => ?_,
    List.forall_mem_cons.mpr ⟨htree.cache hx, h.cache⟩⟩
  · exact (hcases ho).elim (fun ho => htree.used ho.1) h.used
  · obtain ⟨hold, hvnode, hinode⟩ := hlive o' ho'
    rcases hcases ho with ⟨ho, hox⟩ | ho
    · rw [← htree.inj hold ho heq] at hox
      exact hox.elim hvnode hinode
    · exact h.fresh ho hold heq
  · rcases hcases ho with ⟨ho, -⟩ | ho <;> rcases hcases ho' with ⟨ho', -⟩ | ho'
    · exact htree.inj ho ho' heq
    · exact absurd heq (h.fresh ho' ho)
    · exact absurd heq.symm (h.fresh ho ho')
    · exact h.inj ho ho' heq

/-- Creating a vnode keeps those that left the tree. -/
theorem Lost.keeps (hkeeps : Keeps s s')
    (hfresh : ∀ o : Owner, o.Live nodes' kids' → o.Live nodes kids ∧ o.addr s' = o.addr s ∨
      s.free (o.addr s' / 4096) = true) : Lost bits s' nodes' kids' lost := by
  refine h.congr (fun _ hv => hv) (fun v hv => hkeeps.vData v (h.used (o := .vnode v) hv).taken)
    (fun v hv => hkeeps.cacheList _ (h.used (o := .inode v) hv).taken)
    (fun ho => (h.used ho).mono hkeeps.free) fun {o o'} ho ho' heq => ?_
  rcases hfresh o' ho' with ⟨hold, haddr⟩ | hfree
  · exact h.fresh ho hold (haddr.symm.trans heq)
  · rw [heq, (h.used ho).taken] at hfree
    cases hfree

/-- Removing a vnode gives back frames of the tree alone. -/
theorem Lost.unlinked (htree : Tree bits s nodes kids) (hd : nodes d) {a b : List ℕ}
    (hkids : kids d = a ++ e :: b) (l : Link) :
    Lost bits (s.unlinked bits d l e) (fun v => nodes v ∧ v ≠ s.entVnode e)
      (update kids d (a ++ b)) lost := by
  have he : e ∈ kids d := by simp [hkids]
  have hentry : (Owner.entry e).Live nodes kids := ⟨d, hd, he⟩
  have hnode : (Owner.vnode (s.entVnode e)).Live nodes kids := htree.child hd he
  have hinode : (Owner.inode (s.entVnode e)).Live nodes kids := htree.child hd he
  refine h.congr (fun _ hv => hv) (fun _ _ => rfl) (fun _ _ => rfl) (fun {o} ho => ?_)
    fun {o o'} ho ho' => ?_
  · have hsplice : InUse bits (s.splice d l (s.entNext e)) (o.addr s) :=
      (h.used ho).mono fun _ hi => hi
    have hdetach : InUse bits (s.detach bits d l e) (o.addr s) :=
      (hsplice.release (h.fresh ho hentry).symm (htree.used hentry).aligned).mono fun _ hi => hi
    exact (hdetach.release (h.fresh ho hinode).symm (htree.used hinode).aligned).release
      (h.fresh ho hnode).symm (htree.used hnode).aligned
  · rw [o'.addr_congr (s.vData_unlinked d l e)]
    exact h.fresh ho (htree.live_splice hd hkids ho').1

end

section

variable (hs₁ : s₁ = s ∨ ∃ l', ∃ e' ∈ kids np, s₁ = s.detach bits np l' e')
include hs₁

/-- What `vfs_rename` gives back is at most one entry. -/
theorem InUse.of_renamed (htree : Tree bits s nodes kids) (hn : nodes np) (hx : InUse bits s x)
    (hne : ∀ e ∈ kids np, e ≠ x) : InUse bits (s₁.move op np l e t newName) x := by
  have hmove : InUse bits s₁ x := by
    rcases hs₁ with rfl | ⟨l', e', he', rfl⟩
    · exact hx
    · have hsplice : InUse bits (s.splice np l' (s.entNext e')) x := hx.mono fun _ hi => hi
      exact (hsplice.release (hne e' he').symm (htree.entry_used hn he').aligned).mono
        fun _ hi => hi
  exact hmove.mono fun i hi => by rwa [(s₁.move_fields l t).2.1]

theorem vData_renamed :
    (s₁.move op np l e t newName).vData = s.vData ∧
      (s₁.move op np l e t newName).cacheList = s.cacheList := by
  obtain ⟨-, -, -, hdata, -, hcache⟩ := @Fs.move_fields e op np newName s₁ l t
  rcases hs₁ with rfl | ⟨l', e', -, rfl⟩
  · exact ⟨hdata, hcache⟩
  · exact ⟨hdata.trans (s.vData_detach np l' e'), hcache⟩

/-- `vfs_rename` keeps the frames of the vnodes that left the tree. -/
theorem Lost.renamed (htree : Tree bits s nodes kids) (hn : nodes np)
    (h : Lost bits s nodes' kids' lost)
    (hentry : ∀ {o : Owner}, o.Live (· ∈ lost) (fun _ => []) → ∀ e ∈ kids np, e ≠ o.addr s) :
    Lost bits (s₁.move op np l e t newName) nodes' kids' lost := by
  obtain ⟨hdata, hcache⟩ := vData_renamed hs₁
  refine h.congr (fun _ hv => hv) (fun v _ => congrFun hdata v) (fun v _ => congrFun hcache _)
    (fun ho => (h.used ho).of_renamed hs₁ htree hn (hentry ho)) fun {o o'} ho ho' => ?_
  rw [o'.addr_congr hdata]
  exact h.fresh ho ho'

end

/-- `vfs_close` of a vnode that left the tree. -/
theorem Tree.vfsClose (htree : Tree bits s nodes kids) (h : Lost bits s nodes kids lost) {vp : ℕ}
    (hvp : vp ∈ lost) :
    Tree bits (Ramfs.vfsClose bits s vp).1 nodes kids ∧
      Lost bits (Ramfs.vfsClose bits s vp).1 nodes kids
        (if lastRef s vp then lost.filter (· ≠ vp) else lost) ∧
      (Ramfs.vfsClose bits s vp).1.rootVnode = s.rootVnode := by
  have hip : s.vData vp ≠ 0 := (h.used (o := .inode vp) hvp).ne
  have hne : vp ≠ 0 := (h.used (o := .vnode vp) hvp).ne
  -- The count changes; then the two frames may go.
  have hsame : SameTree s (s.dropRef (s.vData vp)) nodes kids := by
    refine ⟨rfl, fun _ _ => rfl, fun _ _ => rfl, fun _ _ => rfl, fun _ _ => rfl, fun _ _ => rfl,
      fun v hv => update_of_ne ?_ _ _, fun _ _ => rfl, fun _ _ _ _ => rfl⟩
    have hlive : (Owner.inode v).Live nodes kids := hv
    exact h.fresh (o := .inode vp) hvp hlive
  have htree₁ : Tree bits (s.dropRef (s.vData vp)) nodes kids :=
    htree.of_same hsame fun o ho => (htree.used ho).mono fun _ hi => hi
  have hlost₁ : Lost bits (s.dropRef (s.vData vp)) nodes kids lost :=
    h.congr (fun _ hv => hv) (fun _ _ => rfl) (fun _ _ => rfl)
      (fun ho => (h.used ho).mono fun _ hi => hi) fun ho ho' => by
        rw [hsame.addr ho']
        exact h.fresh ho ho'
  unfold Ramfs.vfsClose
  rw [if_neg hne]
  dsimp only
  rw [if_neg hip]
  have hcount : (s.dropRef (s.vData vp)).iRefcount (s.vData vp) =
      decRef (s.iRefcount (s.vData vp)) := update_self _ _ _
  rw [hcount]
  by_cases hlast : decRef (s.iRefcount (s.vData vp)) = 0
  swap
  · rw [if_neg hlast, if_neg fun hlastRef => hlast hlastRef.2]
    exact ⟨htree₁, hlost₁, rfl⟩
  rw [if_pos hlast, if_pos ⟨hip, hlast⟩]
  generalize hs₁ : s.dropRef (s.vData vp) = s₁ at htree₁ hlost₁
  have hdata : s.vData vp = s₁.vData vp := by rw [← hs₁]; rfl
  have hroot : s.rootVnode = s₁.rootVnode := by rw [← hs₁]; rfl
  rw [vfsFreeVnode_eq hne (hdata ▸ hip) (hlost₁.cache vp hvp)]
  have hvnode : (Owner.vnode vp).Live (· ∈ lost) (fun _ => []) := hvp
  have hinode : (Owner.inode vp).Live (· ∈ lost) (fun _ => []) := hvp
  have hrelease : ∀ {x}, InUse bits s₁ x → x ≠ s₁.vData vp → x ≠ vp →
      InUse bits ((s₁.release bits (s₁.vData vp)).release bits vp) x := fun hx hxi hxv =>
    (hx.release hxi (hlost₁.used hinode).aligned).release hxv (hlost₁.used hvnode).aligned
  refine ⟨?_, ?_, hroot.symm⟩
  · exact htree₁.of_same (SameTree.of_free _ _ _ _) fun o ho => hrelease (htree₁.used ho)
      (hlost₁.fresh hinode ho) (hlost₁.fresh hvnode ho)
  · have hmem : ∀ {o : Owner}, o.Live (· ∈ lost.filter (· ≠ vp)) (fun _ => []) →
        o.Live (· ∈ lost) (fun _ => []) ∧ o ≠ .vnode vp ∧ o ≠ .inode vp := by
      rintro (v | v | _) ho
      · simpa [Owner.Live] using ho
      · simpa [Owner.Live] using ho
      · exact absurd ho.choose_spec.2 List.not_mem_nil
    refine hlost₁.congr (fun v hv => (mem_filter_ne.mpr hv).1) (fun _ _ => rfl) (fun _ _ => rfl)
      (fun ho => ?_) fun {o o'} ho ho' => ?_
    · obtain ⟨ho, hnode, hino⟩ := hmem ho
      exact hrelease (hlost₁.used ho) (fun heq => hino (hlost₁.inj ho hinode heq))
        fun heq => hnode (hlost₁.inj ho hvnode heq)
    · exact hlost₁.fresh (hmem ho).1 ho'

/-! ## Every state of a run -/

/-- What holds in every state: the references of files are counted, and what descriptors
refer to is in the tree or left it with its frame. -/
structure VnodesOk (bits : ℕ) (t : VnodeRun n) (kids : ℕ → List ℕ) : Prop where
  files : t.files.Balanced
  tree : Tree bits t.fs (· ∈ t.live) kids
  lost : Lost bits t.fs (· ∈ t.live) kids t.lost
  opened : ∀ v, t.files.Refers (.ramfs v) → v ∈ t.live ∨ v ∈ t.lost

/-- There is no root and nothing is open, or the state is as above. -/
def VnodesHold (bits : ℕ) (t : VnodeRun n) : Prop :=
  (t.fs.rootVnode = 0 ∧ t.lost = [] ∧ t.files.Balanced ∧ ∀ v, ¬ t.files.Refers (.ramfs v)) ∨
    ∃ kids, VnodesOk bits t kids

/-- Whatever an entry or a descriptor refers to is a frame in use. -/
theorem VnodesHold.inUse {t : VnodeRun n} (h : VnodesHold bits t) (hv : t.Refers v) :
    InUse bits t.fs v := by
  rcases h with ⟨hroot, -, -, hnone⟩ | ⟨kids, hok⟩
  · rcases hv with ⟨d, hd, -⟩ | hv
    · exact absurd hroot hd.1
    · exact absurd hv (hnone v)
  · rcases hv with ⟨d, hd, hchild⟩ | hv
    · have hlive := hok.tree.reached_iff.mp ⟨hd.1, hd.2.tail hchild⟩
      exact hok.tree.used (o := .vnode v) hlive
    · rcases hok.opened v hv with hlive | hlost
      · exact hok.tree.used (o := .vnode v) hlive
      · exact hok.lost.used (o := .vnode v) hlost

theorem VnodesHold.init (n bits : ℕ) (s : Fs) : VnodesHold bits (VnodeRun.init n bits s) := by
  obtain ⟨hfiles, htty⟩ := Files.balanced_boot n FileVnode.tty
  have hnone : ∀ v, ¬ (Files.boot n FileVnode.tty).Refers (.ramfs v) := fun v hv => by
    cases htty _ hv
  rcases hasTree_init bits s with ⟨hroot, -⟩ | ⟨kids, htree⟩
  · exact .inl ⟨hroot, rfl, hfiles, hnone⟩
  · exact .inr ⟨kids, hfiles, htree, .nil, fun v hv => absurd hv (hnone v)⟩

/-- The state with the vnodes given by a predicate. -/
theorem VnodesOk.of_nodes {live : List ℕ} {files : Files n FileVnode}
    (hfiles : files.Balanced) (htree : Tree bits s nodes kids) (hlost : Lost bits s nodes kids lost)
    (hopened : ∀ v, files.Refers (.ramfs v) → nodes v ∨ v ∈ lost)
    (hlive : ∀ v, nodes v ↔ v ∈ live) :
    ∃ kids, VnodesOk bits { fs := s, live := live, lost := lost, files := files } kids := by
  have hnodes : nodes = (· ∈ live) := by
    funext v
    exact propext (hlive v)
  subst hnodes
  exact ⟨kids, hfiles, htree, hlost, hopened⟩

section

variable {t : VnodeRun n} (h : VnodesOk bits t kids)

include h

/-- A new vnode keeps the others in use. -/
theorem VnodesOk.made (hbits : bits ≤ 2 ^ 23) (type : VType) (hd : d = 0 ∨ d ∈ t.live)
    (hname : FreshName bits t.fs d name) :
    ∃ kids, VnodesOk bits { t.toFsRun.made (createIn bits t.fs type d name) with
      lost := t.lost, files := t.files } kids := by
  rcases hd with rfl | hd
  · exact of_nodes h.files h.tree h.lost h.opened fun _ => Iff.rfl
  rcases h.tree.createIn hbits type hd hname with ⟨s', hcreate, htree, hsame, hkeeps⟩ |
    ⟨s', vp, de, hcreate, hvp, htree, hkeeps, hvpFree, hipFree, hdeFree⟩
  · rw [hcreate]
    refine of_nodes h.files htree (h.lost.keeps hkeeps fun o ho => ?_) h.opened
      fun _ => Iff.rfl
    exact .inl ⟨ho, hsame.addr ho⟩
  · rw [hcreate]
    dsimp only [FsRun.made]
    rw [if_neg hvp]
    refine of_nodes h.files htree (h.lost.keeps hkeeps fun o ho => ?_)
      (fun v hv => (h.opened v hv).imp_left .inl) fun v => by rw [List.mem_cons, or_comm]
    rcases ho.of_addKid with ((hold | rfl) | rfl) | rfl
    · refine .inl ⟨hold, ?_⟩
      cases o with
      | inode v => exact hkeeps.vData v (h.tree.used (o := .vnode v) hold).taken
      | _ => rfl
    · exact .inr hvpFree
    · exact .inr hipFree
    · exact .inr hdeFree

/-- Removing a vnode that is not open keeps the others in use. -/
theorem VnodesOk.unlink (hd : d = 0 ∨ d ∈ t.live) (name : CStr)
    (hclosed : (vfsUnlink bits t.fs d name).2 = 0 →
      ¬ t.files.Refers (.ramfs (vfsLookupRamfs bits t.fs d name))) :
    ∃ kids, VnodesOk bits { t.toFsRun.removed (vfsLookupRamfs bits t.fs d name)
      (vfsUnlink bits t.fs d name) with lost := t.lost, files := t.files } kids := by
  rcases hd with rfl | hd
  · exact of_nodes h.files h.tree h.lost h.opened fun _ => Iff.rfl
  rcases h.tree.vfsUnlink_eq hd name with hfail | ⟨a, e, b, hkids, hn, hempty, hok⟩
  · rw [hfail]
    exact of_nodes h.files h.tree h.lost h.opened fun _ => Iff.rfl
  · rw [hok] at hclosed ⊢
    rw [h.tree.lookup_eq hd (show e ∈ kids d by simp [hkids]) hn] at hclosed ⊢
    refine of_nodes h.files (h.tree.unlinked hd hkids hempty)
      (h.lost.unlinked h.tree hd hkids _) (fun v hv => ?_) fun _ => mem_filter_ne
    refine (h.opened v hv).imp_left fun hlive => ⟨hlive, ?_⟩
    rintro rfl
    exact hclosed rfl hv

/-- A rename keeps every vnode in use; the one it displaces leaves the tree. -/
theorem VnodesOk.rename (hbits : bits ≤ 2 ^ 23) (ho : op = 0 ∨ op ∈ t.live)
    (hn : np = 0 ∨ np ∈ t.live) {oldName : CStr}
    (hmeets : RenameMeets bits t.fs op oldName np newName) :
    ∃ kids, VnodesOk bits { t.toFsRun.removed (vfsLookupRamfs bits t.fs np newName)
      (vfsRename bits t.fs op oldName np newName) with
      lost := (if (vfsRename bits t.fs op oldName np newName).2 = 0 ∧
        vfsLookupRamfs bits t.fs np newName ≠ 0 then [vfsLookupRamfs bits t.fs np newName]
        else []) ++ t.lost
      files := t.files } kids := by
  by_cases hnull : op = 0 ∨ np = 0
  · rw [vfsRename, if_pos hnull]
    exact of_nodes h.files h.tree h.lost h.opened fun _ => Iff.rfl
  rw [not_or] at hnull
  have ho := ho.resolve_left hnull.1
  have hn := hn.resolve_left hnull.2
  have hlookup := h.tree.lookup (.inr hn) newName
  rcases h.tree.vfsRename_eq hbits ho hn hmeets with
    hfail | ⟨s₁, l, e, kids', hs₁, hents, hok, htree, -⟩
  · rw [hfail]
    exact of_nodes h.files h.tree h.lost h.opened fun _ => Iff.rfl
  rw [hok]
  generalize hx : vfsLookupRamfs bits t.fs np newName = x at hents htree hlookup
  have hlive : ∀ o : Owner, o.Live (fun v => v ∈ t.live ∧ v ≠ x) kids' →
      o.Live (· ∈ t.live) kids ∧ o ≠ .vnode x ∧ o ≠ .inode x := by
    intro o ho
    cases o with
    | vnode v => exact ⟨ho.1, by simpa using ho.2, by simp⟩
    | inode v => exact ⟨ho.1, by simp, by simpa using ho.2⟩
    | entry f =>
      obtain ⟨v, hv, hf⟩ := ho
      exact ⟨hents v f hv hf, by simp, by simp⟩
  have hentry : ∀ {f}, f ∈ kids np → (Owner.entry f).Live (· ∈ t.live) kids :=
    fun hf => ⟨np, hn, hf⟩
  by_cases hx0 : x = 0
  · rw [if_neg (by simp [hx0])]
    have hlost : Lost bits t.fs (fun v => v ∈ t.live ∧ v ≠ x) kids' t.lost :=
      ⟨h.lost.used, fun {_ o'} ho ho' => h.lost.fresh ho (hlive o' ho').1, h.lost.inj, h.lost.cache⟩
    refine of_nodes h.files htree (hlost.renamed hs₁ h.tree hn fun ho f hf =>
      h.lost.fresh ho (hentry hf)) (fun v hv => ?_) fun _ => mem_filter_ne
    refine (h.opened v hv).imp_left fun hlive => ⟨hlive, ?_⟩
    rw [hx0]
    exact (h.tree.used (o := .vnode v) hlive).ne
  · rw [if_pos ⟨rfl, hx0⟩]
    have hxLive := hlookup.resolve_left hx0
    have hlost := h.lost.cons h.tree hxLive hlive
    refine of_nodes h.files htree (hlost.renamed hs₁ h.tree hn fun {o} ho f hf => ?_)
      (fun v hv => ?_) fun _ => mem_filter_ne
    · rcases ho.of_cons with (rfl | rfl) | ho
      · have hnode : (Owner.vnode x).Live (· ∈ t.live) kids := hxLive
        intro heq
        cases h.tree.inj (hentry hf) hnode heq
      · have hnode : (Owner.inode x).Live (· ∈ t.live) kids := hxLive
        intro heq
        cases h.tree.inj (hentry hf) hnode heq
      · exact h.lost.fresh ho (hentry hf)
    · by_cases hvx : v = x
      · exact .inr (by simp [hvx])
      · exact (h.opened v hv).imp (fun hlive => ⟨hlive, hvx⟩) fun hv => .tail _ hv

/-- What paths lead to. -/
theorem VnodesOk.dir (path : List CStr) : t.dir bits path = 0 ∨ t.dir bits path ∈ t.live :=
  h.tree.resolve (.inr h.tree.root) path

/-- A call on the tree. -/
theorem VnodesOk.treeStep (hbits : bits ≤ 2 ^ 23) (op : FsOp)
    (hmeets : VnodeMeets bits t (.tree op)) :
    ∃ kids, VnodesOk bits (vnodeStep bits t (.tree op)) kids := by
  obtain ⟨hfs, hclosed⟩ := hmeets
  cases op with
  | create path name => exact h.made hbits .vreg (h.dir path) hfs
  | mkdir path name => exact h.made hbits .vdir (h.dir path) hfs
  | unlink path name => exact h.unlink (h.dir path) name hclosed
  | rename oldPath oldName newPath newName =>
    exact h.rename hbits (h.dir oldPath) (h.dir newPath) hfs

end

/-- Without a root nothing is opened. -/
theorem vnodesHold_of_root_eq_zero {t : VnodeRun n} (hroot : t.fs.rootVnode = 0)
    (hlost : t.lost = []) (hfiles : t.files.Balanced) (hnone : ∀ v, ¬ t.files.Refers (.ramfs v))
    (op : VnodeOp n) (hmeets : VnodeMeets bits t op) : VnodesHold bits (vnodeStep bits t op) := by
  have hdir : ∀ path, t.dir bits path = 0 := fun path => by
    rw [FsRun.dir, hroot, resolve_zero]
  cases op with
  | tree op =>
    have hdisplaced : t.toFsRun.displaced bits op = [] := by
      cases op <;> simp [FsRun.displaced, hdir, vfsRename]
    refine .inl ⟨?_, ?_, hfiles, hnone⟩
    · simp only [vnodeStep, fsStep_of_root_eq_zero hroot, hroot]
    · simp only [vnodeStep, hdisplaced, hlost, List.append_nil]
  | lookup path name => exact .inl ⟨hroot, hlost, hfiles, hnone⟩
  | vfsClose vp =>
    rcases hmeets with rfl | ⟨hvp, -⟩
    · exact .inl ⟨hroot, by simp [vnodeStep, hlost], hfiles, hnone⟩
    · rw [hlost] at hvp
      cases hvp
  | sysOpen p path flags =>
    simp only [vnodeStep, hdir, if_true]
    exact .inl ⟨hroot, hlost, hfiles, hnone⟩
  | sysClose p fd =>
    exact .inl ⟨hroot, hlost, hfiles.fdClose p fd, fun v hv => hnone v (refers_fdClose hv)⟩

/-- One call keeps every vnode that is referred to in use. -/
theorem VnodesHold.vnodeStep {t : VnodeRun n} (h : VnodesHold bits t) (hbits : bits ≤ 2 ^ 23)
    (op : VnodeOp n) (hmeets : VnodeMeets bits t op) :
    VnodesHold bits (vnodeStep bits t op) := by
  rcases h with ⟨hroot, hlost, hfiles, hnone⟩ | ⟨kids, h⟩
  · exact vnodesHold_of_root_eq_zero hroot hlost hfiles hnone op hmeets
  cases op with
  | tree op => exact .inr (h.treeStep hbits op hmeets)
  | lookup path name => exact .inr ⟨kids, h⟩
  | vfsClose vp =>
    rcases hmeets with rfl | ⟨hvp, hclosed⟩
    · have hlost : (if lastRef t.fs 0 then t.lost.filter (· ≠ 0) else t.lost) = t.lost := by
        split_ifs
        · refine List.filter_eq_self.mpr fun v hv => decide_eq_true ?_
          exact (h.lost.used (o := .vnode v) hv).ne
        · rfl
      simp only [Ramfs.vnodeStep, hlost]
      exact .inr ⟨kids, h⟩
    · obtain ⟨htree, hlost, -⟩ := h.tree.vfsClose h.lost hvp
      refine .inr (VnodesOk.of_nodes h.files htree hlost (fun v hv => ?_) fun _ => Iff.rfl)
      refine (h.opened v hv).imp_right fun hv' => ?_
      split_ifs with hlast
      · refine mem_filter_ne.mp ⟨hv', ?_⟩
        rintro rfl
        exact hclosed hlast hv
      · exact hv'
  | sysOpen p path flags =>
    simp only [Ramfs.vnodeStep]
    split_ifs with hzero
    · exact .inr ⟨kids, h⟩
    · have hfiles := h.files.sysOpen p (FileVnode.ramfs (t.dir bits path)) flags
      refine .inr (VnodesOk.of_nodes hfiles h.tree h.lost (fun v hv => ?_) fun _ => Iff.rfl)
      rcases h.files.refers_sysOpen hv with hold | heq
      · exact h.opened v hold
      · cases heq
        exact .inl ((h.dir path).resolve_left hzero)
  | sysClose p fd =>
    exact .inr ⟨kids, h.files.fdClose p fd, h.tree, h.lost,
      fun v hv => h.opened v (refers_fdClose hv)⟩

/-- The tree without any process: there is no root, or nothing is open. -/
def TreeAlone (bits : ℕ) (t : FsRun) : Prop :=
  (t.fs.rootVnode = 0 ∧ t.live = []) ∨
    ∃ (u : VnodeRun 0) (kids : ℕ → List ℕ), u.toFsRun = t ∧ VnodesOk bits u kids

theorem TreeAlone.init (bits : ℕ) (s : Fs) : TreeAlone bits (FsRun.init bits s) := by
  refine (hasTree_init bits s).imp_right fun ⟨kids, htree⟩ => ?_
  exact ⟨VnodeRun.init 0 bits s, kids, rfl, (Files.balanced_boot 0 .tty).1, htree, .nil,
    fun _ hv => hv.choose.elim0⟩

/-- One call keeps the tree. -/
theorem TreeAlone.fsStep {t : FsRun} (h : TreeAlone bits t) (hbits : bits ≤ 2 ^ 23) (op : FsOp)
    (hmeets : FsMeets bits t op) : TreeAlone bits (fsStep bits t op) := by
  rcases h with ⟨hroot, hlive⟩ | ⟨u, kids, rfl, h⟩
  · rw [fsStep_of_root_eq_zero hroot]
    exact .inl ⟨hroot, hlive⟩
  have hclosed : VnodeMeets bits u (.tree op) := by
    refine ⟨hmeets, ?_⟩
    cases op with
    | unlink path name => exact fun _ hrefers => hrefers.choose.elim0
    | _ => trivial
  obtain ⟨kids', h'⟩ := h.treeStep hbits op hclosed
  exact .inr ⟨_, kids', rfl, h'⟩

/-- The tree is well formed after every sequence of calls that meet the condition. -/
theorem ramfs_tree_wellFormed (bits : ℕ) (hbits : bits ≤ 2 ^ 23) (s : Fs) (ops : List FsOp)
    (hmeets : Guarded (fsStep bits) (FsMeets bits) (FsRun.init bits s) ops) :
    WellFormed (run (fsStep bits) (FsRun.init bits s) ops) := by
  have halone : TreeAlone bits (run (fsStep bits) (FsRun.init bits s) ops) :=
    run_invariant (fun _ op ht hop => ht.fsStep hbits op hop) (TreeAlone.init bits s) hmeets
  have htree : HasTree bits (run (fsStep bits) (FsRun.init bits s) ops) := by
    refine halone.imp_right fun ⟨u, kids, hu, h⟩ => ⟨kids, ?_⟩
    rw [← hu]
    exact h.tree
  exact htree.wellFormed

/-- A file moves to another directory over an empty one and is removed there. -/
theorem ramfs_tree_wellFormed_move :
    WellFormed (run (fsStep 16) (FsRun.init 16 blankFs)
      [.mkdir [] dirD, .create [] fileA, .mkdir [dirD] fileB, .rename [] fileA [dirD] fileB,
        .unlink [dirD] fileB]) :=
  ramfs_tree_wellFormed 16 (by decide) blankFs _ (by decide +kernel)

/-- In every run whose calls meet the condition, what an entry of the tree or a descriptor
refers to is a frame in use, and a call gives back no frame that is still referred to. -/
theorem vnode_frames_live (n bits : ℕ) (hbits : bits ≤ 2 ^ 23) (s : Fs) (ops : List (VnodeOp n))
    (op : VnodeOp n) (hmeets : Guarded (vnodeStep bits) (VnodeMeets bits) (VnodeRun.init n bits s)
      (ops ++ [op])) (v : ℕ) :
    let t := run (vnodeStep bits) (VnodeRun.init n bits s) ops
    let t' := vnodeStep bits t op
    (t.Refers v → InUse bits t.fs v) ∧
      (t.fs.free (v / 4096) = false → t'.fs.free (v / 4096) = true → ¬ t'.Refers v) := by
  obtain ⟨hops, hop, -⟩ := guarded_append.mp hmeets
  have ht : VnodesHold bits (run (vnodeStep bits) (VnodeRun.init n bits s) ops) :=
    run_invariant (fun _ op ht hop => ht.vnodeStep hbits op hop) (VnodesHold.init n bits s) hops
  have ht' := ht.vnodeStep hbits op hop
  refine ⟨ht.inUse, fun _ hfree hrefers => ?_⟩
  rw [(ht'.inUse hrefers).taken] at hfree
  cases hfree

/-- A file is moved over another one that is open, and removed after a close. -/
theorem vnode_frames_live_moved :
    let a := fileA
    let b := fileB
    let ops : List (VnodeOp 1) := [.tree (.create [] b), .tree (.mkdir [] a), .sysOpen 0 [b] 0,
      .tree (.create [a] b), .tree (.rename [a] b [] b), .vfsClose (3 * 4096), .sysClose 0 3]
    let t' := vnodeStep 16 (run (vnodeStep 16) (VnodeRun.init 1 16 blankFs) ops)
      (.tree (.unlink [] b))
    t'.fs.free 9 = true ∧ ¬ t'.Refers (9 * 4096) :=
  ⟨by decide +kernel, (vnode_frames_live 1 16 (by decide) blankFs _ _ (by decide +kernel)
    (9 * 4096)).2 (by decide +kernel) (by decide +kernel)⟩

/-- `vfs_close` of a file in the tree frees its vnode under the entry, and `vfs_unlink` of an
open file frees its vnode under the descriptor. -/
theorem vnode_freed_in_use :
    let a := fileA
    let t := run (vnodeStep 16) (VnodeRun.init 1 16 blankFs) [.tree (.create [] a)]
    let t₁ := vnodeStep 16 t (.vfsClose (3 * 4096))
    let u := vnodeStep 16 t (.sysOpen 0 [a] 0)
    let u₁ := vnodeStep 16 u (.tree (.unlink [] a))
    (t.fs.free 3 = false ∧ t₁.fs.free 3 = true ∧ t₁.Refers (3 * 4096)) ∧
      (u.fs.free 3 = false ∧ u₁.fs.free 3 = true ∧ u₁.Refers (3 * 4096)) := by
  refine ⟨⟨by decide +kernel, by decide +kernel, .inl ⟨4096, ?_, [5 * 4096], ?_, ?_⟩⟩,
    by decide +kernel, by decide +kernel, .inr (by decide +kernel)⟩
  · exact ⟨by decide +kernel, by rw [show Fs.rootVnode _ = 4096 by decide +kernel]⟩
  · exact ⟨by decide +kernel, by decide +kernel⟩
  · exact ⟨5 * 4096, by simp, by decide +kernel⟩

end Tomahawk.Ramfs
