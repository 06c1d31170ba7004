import Tomahawk.Proc.Process

/-!
# The process tree

`process_list` and the lists of children as lists. A process is in the list of its parent and
in no other. Parents are made before their children, and init is made before all others, so
no process becomes its own ancestor when children are handed to init.
-/

namespace Tomahawk.Proc

open Function Tomahawk.Lib

variable {t t' : ProcTable} {k m : ℕ} {P : List PcbPtr} {kids : PcbPtr → List PcbPtr}
  {c d p q : PcbPtr} {a b : List PcbPtr} {init : Option PcbPtr}

/-- The processes in the list are `P`, and the children of `p` are `kids p`. Memory is in use
below `k`, and the pids below `m` were given out. -/
structure Tree (t : ProcTable) (k m : ℕ) (P : List PcbPtr) (kids : PcbPtr → List PcbPtr) :
    Prop where
  list : IsList t.next t.processList P
  siblings : ∀ p, IsList t.siblingNext (t.children p) (kids p)
  child : ∀ p, ∀ c ∈ kids p, c ∈ P ∧ t.parent c = some p
  parent : ∀ c ∈ P, ∀ p, t.parent c = some p → c ∈ kids p ∧ p < c
  pids : ∀ c ∈ P, 0 < t.pid c ∧ t.pid c < m
  inj : ∀ c ∈ P, ∀ d ∈ P, t.pid c = t.pid d → c = d
  init : ∀ i ∈ P, t.pid i = 1 → t.parent i = none ∧ ∀ c ∈ P, c ≠ i → i < c
  alloc : ∀ c ∈ P, c.val < k
  reaped : t.reaped.Nodup
  gone : ∀ c ∈ t.reaped, c ∉ P ∧ c.val < k

/-- A list of distinct pointers is not longer than the region. -/
theorem length_le_region {l : List PcbPtr} (hl : l.Nodup) : l.length ≤ kmallocRegionSize := by
  have hcard := hl.length_le_card
  rwa [Fintype.card_fin] at hcard

section

variable (h : Tree t k m P kids)
include h

theorem Tree.notMem_kids (hc : c ∉ P) (p : PcbPtr) : c ∉ kids p :=
  fun hmem => hc (h.child p c hmem).1

/-- A process is the child of one process only. -/
theorem Tree.kids_unique (hp : c ∈ kids p) (hq : c ∈ kids q) : p = q := by
  have heq := (h.child p c hp).2.symm.trans (h.child q c hq).2
  exact Option.some.inj heq

/-- Memory that was not in use is no process and has no children. -/
theorem Tree.fresh (hp : k ≤ p.val) : p ∉ P ∧ kids p = [] ∧ p ∉ t.reaped := by
  refine ⟨fun hmem => ?_, ?_, fun hmem => ?_⟩
  · have := h.alloc p hmem
    omega
  · rw [List.eq_nil_iff_forall_not_mem]
    intro c hc
    obtain ⟨hcP, hparent⟩ := h.child p c hc
    have hlt : p.val < c.val := (h.parent c hcP p hparent).2
    have := h.alloc c hcP
    omega
  · have := (h.gone p hmem).2
    omega

/-- A new PCB, cleared and given its first fields, is not in the tree yet. -/
theorem Tree.newPcb (hp : k ≤ p.val) {k' m' : ℕ} (hk : p.val < k') (hm : m ≤ m') (pid : ℕ)
    (parent : Option PcbPtr) : Tree ((t.clear p).introduce p pid parent) k' m' P kids := by
  obtain ⟨hpP, hkids, hreaped⟩ := h.fresh hp
  have hne : ∀ c ∈ P, c ≠ p := fun c hc heq => hpP (heq ▸ hc)
  have hpid : ∀ c ∈ P, ((t.clear p).introduce p pid parent).pid c = t.pid c := by
    intro c hc
    simp [ProcTable.clear, ProcTable.introduce, update_of_ne (hne c hc)]
  have hparent : ∀ c ∈ P, ((t.clear p).introduce p pid parent).parent c = t.parent c := by
    intro c hc
    simp [ProcTable.clear, ProcTable.introduce, update_of_ne (hne c hc)]
  refine ⟨?_, fun q => ?_, fun q c hc => ?_, fun c hc q hq => ?_, fun c hc => ?_,
    fun c hc d hd heq => ?_, fun i hi hpid1 => ?_, fun c hc => ?_, h.reaped, fun c hc => ?_⟩
  · exact h.list.congr fun c hc => update_of_ne (hne c hc) _ _
  · by_cases hq : q = p
    · subst hq
      simp [ProcTable.clear, ProcTable.introduce, hkids]
    · have hchildren : (t.clear p).children q = t.children q := update_of_ne hq _ _
      change IsList (t.clear p).siblingNext ((t.clear p).children q) (kids q)
      rw [hchildren]
      refine (h.siblings q).congr fun c hc => update_of_ne ?_ _ _
      exact hne c (h.child q c hc).1
  · obtain ⟨hcP, hcq⟩ := h.child q c hc
    exact ⟨hcP, (hparent c hcP).trans hcq⟩
  · rw [hparent c hc] at hq
    exact h.parent c hc q hq
  · have := h.pids c hc
    rw [hpid c hc]
    omega
  · rw [hpid c hc, hpid d hd] at heq
    exact h.inj c hc d hd heq
  · rw [hpid i hi] at hpid1
    rw [hparent i hi]
    exact h.init i hi hpid1
  · have := h.alloc c hc
    omega
  · have := h.gone c hc
    exact ⟨this.1, by omega⟩

end

/-- A child is put in front of the children of its parent. -/
theorem isList_pushChild (hsiblings : ∀ p, IsList t.siblingNext (t.children p) (kids p))
    (hc : ∀ p, c ∉ kids p) (q p : PcbPtr) :
    IsList (t.pushChild q c).siblingNext ((t.pushChild q c).children p)
      (update kids q (c :: kids q) p) := by
  by_cases hp : p = q
  · subst hp
    simpa [ProcTable.pushChild] using (hsiblings p).push (hc p)
  · simp only [ProcTable.pushChild, update_of_ne hp]
    refine (hsiblings p).congr fun x hx => update_of_ne ?_ _ _
    rintro rfl
    exact hc p hx

/-- A new PCB is put in the list, and in the list of its parent if it has one. -/
theorem Tree.add (h : Tree t k m P kids) (hp : p ∉ P) (hkids : kids p = []) (hgone : p ∉ t.reaped)
    (halloc : p.val < k) (hlast : ∀ c ∈ P, c < p) (hpid : t.pid p = m) (hm : 0 < m)
    (hparent : ∀ q, t.parent p = some q → q < p) (hfirst : m = 1 → t.parent p = none) :
    Tree
      (match t.parent p with
        | some q => (t.push p).pushChild q p
        | none => t.push p) k (m + 1) (p :: P)
      (match t.parent p with
        | some q => update kids q (p :: kids q)
        | none => kids) := by
  have hlist : IsList (t.push p).next (t.push p).processList (p :: P) := h.list.push hp
  have hpids : ∀ c ∈ p :: P, 0 < t.pid c ∧ t.pid c < m + 1 :=
    List.forall_mem_cons.mpr ⟨by omega, fun c hc => (h.pids c hc).imp_right Nat.lt_succ_of_lt⟩
  have hne : ∀ c ∈ P, t.pid c ≠ t.pid p := by
    intro c hc
    have := h.pids c hc
    omega
  have hinj : ∀ c ∈ p :: P, ∀ d ∈ p :: P, t.pid c = t.pid d → c = d := by
    intro c hc d hd heq
    rcases List.mem_cons.mp hc with rfl | hcP <;> rcases List.mem_cons.mp hd with rfl | hdP
    · rfl
    · exact absurd heq.symm (hne d hdP)
    · exact absurd heq (hne c hcP)
    · exact h.inj c hcP d hdP heq
  have hinit : ∀ i ∈ p :: P, t.pid i = 1 →
      t.parent i = none ∧ ∀ c ∈ p :: P, c ≠ i → i < c := by
    intro i hi hi1
    rcases List.mem_cons.mp hi with rfl | hiP
    · -- The first pid: there was no process before.
      refine ⟨hfirst (by omega), fun c hc hci => ?_⟩
      have hcP := (List.mem_cons.mp hc).resolve_left hci
      have := h.pids c hcP
      omega
    · obtain ⟨hnone, hbefore⟩ := h.init i hiP hi1
      exact ⟨hnone, List.forall_mem_cons.mpr ⟨fun _ => hlast i hiP, hbefore⟩⟩
  have hgones : ∀ c ∈ t.reaped, c ∉ p :: P ∧ c.val < k := by
    intro c hc
    have hcp : c ≠ p := fun heq => hgone (heq ▸ hc)
    exact (h.gone c hc).imp_left fun hcP => List.not_mem_cons_of_ne_of_not_mem hcp hcP
  have hchild : ∀ q, ∀ c ∈ kids q, c ∈ p :: P ∧ t.parent c = some q := fun q c hc =>
    (h.child q c hc).imp_left (List.mem_cons_of_mem _)
  have hallocs : ∀ c ∈ p :: P, c.val < k := List.forall_mem_cons.mpr ⟨halloc, h.alloc⟩
  cases hcase : t.parent p with
  | none =>
    refine ⟨hlist, h.siblings, hchild, List.forall_mem_cons.mpr ⟨fun q hq => ?_, h.parent⟩, hpids,
      hinj, hinit, hallocs, h.reaped, hgones⟩
    exact nomatch hcase.symm.trans hq
  | some q =>
    refine ⟨hlist, fun r => isList_pushChild (t := t.push p) h.siblings (h.notMem_kids hp) q r,
      fun r c hc => ?_, List.forall_mem_cons.mpr ⟨fun r hr => ?_, fun c hc r hr => ?_⟩, hpids, hinj,
      hinit, hallocs, h.reaped, hgones⟩
    · rcases mem_update_cons.mp hc with hc | ⟨rfl, rfl⟩
      · exact hchild r c hc
      · exact ⟨List.mem_cons_self, hcase⟩
    · obtain rfl : q = r := Option.some.inj (hcase.symm.trans hr)
      exact ⟨mem_update_cons.mpr (.inr ⟨rfl, rfl⟩), hparent q hcase⟩
    · exact (h.parent c hc r hr).imp_left fun hmem => mem_update_cons.mpr (.inl hmem)

/-- The lists of children after one child was taken off its list. -/
theorem isList_unlinkChild (h : Tree t k m P kids) (hq : kids q = a ++ c :: b) (p : PcbPtr) :
    IsList (t.unlinkChild q a.getLast? c).siblingNext ((t.unlinkChild q a.getLast? c).children p)
      (update kids q (a ++ b) p) := by
  have hlist := h.siblings q
  rw [hq] at hlist
  have hunlink := hlist.unlinkAt
  cases hlast : a.getLast? with
  | none =>
    rw [hlast] at hunlink
    by_cases hp : p = q
    · subst hp
      simpa [ProcTable.unlinkChild, ProcTable.withChildren] using hunlink
    · simpa [ProcTable.unlinkChild, ProcTable.withChildren, update_of_ne hp] using
        h.siblings p
  | some r =>
    rw [hlast] at hunlink
    have hr : r ∈ kids q := by
      rw [hq]
      exact List.mem_append_left _ (List.mem_of_getLast? hlast)
    by_cases hp : p = q
    · subst hp
      simpa [ProcTable.unlinkChild] using hunlink
    · simp only [ProcTable.unlinkChild, update_of_ne hp]
      refine (h.siblings p).congr fun x hx => update_of_ne ?_ _ _
      rintro rfl
      exact hp (h.kids_unique hx hr)

/-- The children that are left. -/
theorem Tree.mem_unlinked (h : Tree t k m P kids) (hq : kids q = a ++ c :: b) {x : PcbPtr} :
    x ∈ update kids q (a ++ b) p ↔ x ∈ kids p ∧ x ≠ c :=
  mem_update_splice hq (h.siblings q).nodup fun hc => h.kids_unique hc (by simp [hq])

/-- Taking a child off a list changes only the lists of children. -/
theorem unlinkChild_eq (t : ProcTable) (p : PcbPtr) (prev : Option PcbPtr) (c : PcbPtr) :
    ∃ siblingNext children, t.unlinkChild p prev c =
      { t with siblingNext := siblingNext, children := children } := by
  cases prev <;> exact ⟨_, _, rfl⟩

/-- `process_reap` takes a process off the list. -/
theorem reap_eq (t : ProcTable) (c : PcbPtr) :
    ∃ next head, t.reap c =
        { t with
          next := next
          processList := head
          pid := update t.pid c 0
          isZombie := update t.isZombie c false
          reaped := c :: t.reaped } ∧
      ∀ {P}, IsList t.next t.processList P → c ∈ P → IsList next head (P.erase c) := by
  simp only [ProcTable.reap, ProcTable.processListRemove]
  cases hremove : removeLink t.next kmallocRegionSize t.processList c with
  | none =>
    refine ⟨_, _, rfl, fun hlist hc => ?_⟩
    obtain ⟨next, head, hsome, -⟩ := hlist.exists_removeLink hc (length_le_region hlist.nodup)
    exact nomatch hremove.symm.trans hsome
  | some r =>
    refine ⟨_, _, rfl, fun hlist hc => ?_⟩
    obtain ⟨next, head, hsome, hrest, -⟩ :=
      hlist.exists_removeLink hc (length_le_region hlist.nodup)
    obtain rfl := Option.some.inj (hremove.symm.trans hsome)
    exact hrest

/-- Adoption gives a child another parent or none. -/
theorem adopt_eq (t : ProcTable) (d c : PcbPtr) (init : Option PcbPtr) :
    ∃ o siblingNext children, t.adopt d init c =
        { t with
          parent := update t.parent c o
          siblingNext := siblingNext
          children := children } ∧ ∀ i, o = some i → init = some i ∧ i ≠ d := by
  unfold ProcTable.adopt
  rcases init with _ | i
  · exact ⟨none, _, _, rfl, nofun⟩
  dsimp only
  split_ifs with hid
  · refine ⟨some i, _, _, rfl, ?_⟩
    rintro _ ⟨⟩
    exact ⟨rfl, hid⟩
  · exact ⟨none, _, _, rfl, nofun⟩

/-- A child is taken off the list of its parent and reaped. -/
theorem Tree.reapChild (h : Tree t k m P kids) (hq : kids q = a ++ c :: b) :
    Tree ((t.unlinkChild q a.getLast? c).reap c) k m (P.erase c)
      (update kids q (a ++ b)) := by
  have hcP : c ∈ P := (h.child q c (by simp [hq])).1
  have hsiblings := isList_unlinkChild h hq
  obtain ⟨siblingNext, children, hunlink⟩ := unlinkChild_eq t q a.getLast? c
  rw [hunlink] at hsiblings ⊢
  obtain ⟨next, head, hreap, hlist⟩ :=
    reap_eq { t with siblingNext := siblingNext, children := children } c
  have hP : ∀ {x}, x ∈ P.erase c ↔ x ≠ c ∧ x ∈ P := h.list.nodup.mem_erase_iff
  rw [hreap]
  refine ⟨hlist h.list hcP, hsiblings, fun r x hx => ?_, fun x hx r hr => ?_, fun x hx => ?_,
    fun x hx y hy heq => ?_, fun i hi hpid1 => ?_, fun x hx => ?_, ?_, fun x hx => ?_⟩
  · obtain ⟨hxr, hxc⟩ := (h.mem_unlinked hq).mp hx
    exact (h.child r x hxr).imp_left fun hxP => hP.mpr ⟨hxc, hxP⟩
  · obtain ⟨hxc, hxP⟩ := hP.mp hx
    exact (h.parent x hxP r hr).imp_left fun hmem => (h.mem_unlinked hq).mpr ⟨hmem, hxc⟩
  · obtain ⟨hxc, hxP⟩ := hP.mp hx
    dsimp only
    rw [update_of_ne hxc]
    exact h.pids x hxP
  · obtain ⟨hxc, hxP⟩ := hP.mp hx
    obtain ⟨hyc, hyP⟩ := hP.mp hy
    dsimp only at heq
    rw [update_of_ne hxc, update_of_ne hyc] at heq
    exact h.inj x hxP y hyP heq
  · obtain ⟨hic, hiP⟩ := hP.mp hi
    dsimp only at hpid1
    rw [update_of_ne hic] at hpid1
    obtain ⟨hnone, hfirst⟩ := h.init i hiP hpid1
    exact ⟨hnone, fun x hx hxi => hfirst x (hP.mp hx).2 hxi⟩
  · exact h.alloc x (hP.mp hx).2
  · exact List.nodup_cons.mpr ⟨fun hmem => (h.gone c hmem).1 hcP, h.reaped⟩
  · rcases List.mem_cons.mp hx with rfl | hx
    · exact ⟨fun hmem => (hP.mp hmem).1 rfl, h.alloc x hcP⟩
    · exact ⟨fun hmem => (h.gone x hx).1 (hP.mp hmem).2, (h.gone x hx).2⟩

/-- A child gets another parent, or none. -/
theorem Tree.setParent (h : Tree t k m P kids) (hc : c ∈ kids d)
    {siblingNext children : PcbPtr → Option PcbPtr} {kids' : PcbPtr → List PcbPtr}
    (o : Option PcbPtr) (hsiblings : ∀ p, IsList siblingNext (children p) (kids' p))
    (hkids : ∀ p x, x ∈ kids' p ↔ x ∈ kids p ∧ x ≠ c ∨ x = c ∧ o = some p)
    (ho : ∀ p, o = some p → p < c) :
    Tree { t with
      parent := update t.parent c o
      siblingNext := siblingNext
      children := children } k m P kids' := by
  obtain ⟨hcP, hcd⟩ := h.child d c hc
  refine ⟨h.list, hsiblings, fun p x hx => ?_, fun x hx p hp => ?_, h.pids, h.inj,
    fun i hi hpid1 => ?_, h.alloc, h.reaped, h.gone⟩
  · rcases (hkids p x).mp hx with ⟨hxp, hxc⟩ | ⟨rfl, hop⟩
    · dsimp only
      rw [update_of_ne hxc]
      exact h.child p x hxp
    · exact ⟨hcP, (update_self ..).trans hop⟩
  · dsimp only at hp
    by_cases hxc : x = c
    · subst hxc
      rw [update_self] at hp
      exact ⟨(hkids p x).mpr (.inr ⟨rfl, hp⟩), ho p hp⟩
    · rw [update_of_ne hxc] at hp
      exact (h.parent x hx p hp).imp_left fun hmem => (hkids p x).mpr (.inl ⟨hmem, hxc⟩)
  · obtain ⟨hnone, hfirst⟩ := h.init i hi hpid1
    have hic : i ≠ c := by
      rintro rfl
      exact nomatch hcd.symm.trans hnone
    exact ⟨(update_of_ne hic _ _).trans hnone, hfirst⟩

/-- One living child of a dying process is handed on; the walk goes on with its siblings. -/
theorem Tree.adoptChild (h : Tree (t.withChildren d (some c)) k m P kids) (hd : kids d = c :: b)
    (hinit : ∀ i, init = some i → i ∈ P ∧ t.pid i = 1) :
    ∃ kids', Tree ((t.adopt d init c).withChildren d (t.siblingNext c)) k m P kids' ∧
      kids' d = b := by
  have hc : c ∈ kids d := by
    rw [hd]
    exact List.mem_cons_self
  -- The lists when the first child of the dying process has left.
  have hrest : ∀ p, IsList t.siblingNext ((t.withChildren d (t.siblingNext c)).children p)
      (update kids d b p) := by
    intro p
    have hunlink := isList_unlinkChild h (a := []) hd p
    simpa [ProcTable.unlinkChild, ProcTable.withChildren] using hunlink
  have hmem : ∀ p x, x ∈ update kids d b p ↔ x ∈ kids p ∧ x ≠ c :=
    fun _ _ => h.mem_unlinked (a := []) hd
  have hout : ∀ p, c ∉ update kids d b p := fun p hx => ((hmem p c).mp hx).2 rfl
  have hdetach : ∃ kids', Tree (ProcTable.withChildren { t with
      parent := update t.parent c none
      siblingNext := update t.siblingNext c none } d (t.siblingNext c)) k m P kids' ∧
      kids' d = b := by
    refine ⟨update kids d b, ?_, update_self _ _ _⟩
    refine h.setParent hc none (fun p => ?_) (fun p x => ?_) nofun
    · refine (hrest p).congr fun x hx => update_of_ne ?_ _ _
      rintro rfl
      exact hout p hx
    · rw [hmem]
      simp
  unfold ProcTable.adopt
  cases init with
  | none => exact hdetach
  | some i =>
    dsimp only
    split_ifs with hid
    · obtain ⟨hiP, hpid1⟩ := hinit i rfl
      have hcP := (h.child d c hc).1
      have hcparent : t.parent c = some d := (h.child d c hc).2
      obtain ⟨hnone, hfirst⟩ := h.init i hiP hpid1
      have hci : c ≠ i := by
        rintro rfl
        have hnone : t.parent c = none := hnone
        rw [hcparent] at hnone
        cases hnone
      refine ⟨update (update kids d b) i (c :: update kids d b i), ?_, ?_⟩
      · refine h.setParent hc (some i) (fun p => ?_) (fun p x => ?_) (fun p hp => ?_)
        · have hpush := isList_pushChild (t := t.withChildren d (t.siblingNext c)) hrest hout i p
          have hchildren : (t.withChildren d (t.siblingNext c)).children i = t.children i :=
            update_of_ne hid _ _
          have hcomm : update (update t.children i (some c)) d (t.siblingNext c) =
              update (t.withChildren d (t.siblingNext c)).children i (some c) :=
            update_comm hid _ _ _
          simp only [ProcTable.pushChild, hchildren] at hpush
          simp only [ProcTable.withChildren, ProcTable.pushChild] at hpush hcomm ⊢
          rw [hcomm]
          exact hpush
        · rw [mem_update_cons, hmem, Option.some.injEq]
        · cases hp
          exact hfirst c hcP hci
      · rw [update_of_ne hid.symm, update_self]
    · exact hdetach

theorem withChildren_reap (t : ProcTable) (d c : PcbPtr) (o : Option PcbPtr) :
    (t.withChildren d o).reap c = (t.reap c).withChildren d o := by
  simp only [ProcTable.reap, ProcTable.processListRemove, ProcTable.withChildren]
  cases removeLink t.next kmallocRegionSize t.processList c <;> rfl

/-- One zombie child of a dying process is reaped; the walk goes on with its siblings. -/
theorem Tree.reapFirst (h : Tree (t.withChildren d (some c)) k m P kids) (hd : kids d = c :: b) :
    Tree ((t.reap c).withChildren d (t.siblingNext c)) k m (P.erase c)
      (update kids d b) := by
  have hreap := h.reapChild (a := []) hd
  have hfirst : (t.withChildren d (some c)).unlinkChild d none c =
      t.withChildren d (t.siblingNext c) := by
    simp [ProcTable.unlinkChild, ProcTable.withChildren]
  rw [List.getLast?_nil, hfirst, withChildren_reap] at hreap
  exact hreap

section Reparent

variable {V : Type*} {s : Procs V}

/-- Reaping a zombie child of `d` and handing on a living one preserve `I`. -/
structure ReparentKeeps (d : PcbPtr) (I : Procs V → List PcbPtr → Prop) : Prop where
  reap : ∀ s P c, P.Nodup → c ∈ P → d < c → s.table.isZombie c = true →
    I s P → I (processReap s c) (P.erase c)
  adopt : ∀ init s P c, c ∈ P → d < c → s.table.parent c = some d → s.table.isZombie c = false →
    (∀ i, init = some i → i ∈ P ∧ s.table.pid i = 1) → I s P →
    I { s with table := s.table.adopt d init c } P

variable {I : Procs V → List PcbPtr → Prop}

/-- The invariant rule for the loop of `process_reparent_children`. -/
theorem reparentLoop_rule (hkeeps : ReparentKeeps d I)
    {fuel : ℕ} {cur : Option PcbPtr} (h : Tree (s.table.withChildren d cur) k m P kids)
    (hfuel : (kids d).length ≤ fuel) (hinit : ∀ i, init = some i → i ∈ P ∧ s.table.pid i = 1)
    (hI : I s P) :
    ∃ P' kids', Tree ((reparentLoop d init fuel cur s).table.withChildren d none) k m P' kids' ∧
      kids' d = [] ∧ I (reparentLoop d init fuel cur s) P' := by
  induction fuel generalizing cur s P kids with
  | zero =>
    have hnil : kids d = [] := List.length_eq_zero_iff.mp (by omega)
    have hcur := h.siblings d
    rw [hnil] at hcur
    have hcur : cur = none := by simpa [ProcTable.withChildren] using hcur
    rw [hcur] at h
    exact ⟨P, kids, h, hnil, hI⟩
  | succ fuel ih =>
    have hsiblings := h.siblings d
    have hfirst : (s.table.withChildren d cur).children d = cur := update_self _ _ _
    rw [hfirst] at hsiblings
    cases cur with
    | none =>
      have hnil : kids d = [] := by
        have hhead := hsiblings.head_eq
        exact List.head?_eq_none_iff.mp hhead.symm
      exact ⟨P, kids, h, hnil, hI⟩
    | some c =>
      obtain ⟨b, hd⟩ : ∃ b, kids d = c :: b := by
        have hhead := hsiblings.head_eq
        exact List.head?_eq_some_iff.mp hhead.symm
      have hc : c ∈ kids d := by
        rw [hd]
        exact List.mem_cons_self
      obtain ⟨hcP, hcparent⟩ := h.child d c hc
      have hdc : d < c := (h.parent c hcP d hcparent).2
      have hcparent : s.table.parent c = some d := hcparent
      have hlength : b.length ≤ fuel := by
        rw [hd, List.length_cons] at hfuel
        omega
      unfold reparentLoop
      cases hzombie : s.table.isZombie c with
      | true =>
        have htree := h.reapFirst hd
        refine ih (s := processReap s c) htree ?_ (fun i hi => ?_)
          (hkeeps.reap s P c h.list.nodup hcP hdc hzombie hI)
        · rw [update_self]
          exact hlength
        · obtain ⟨hiP, hpid1⟩ := hinit i hi
          have hic : i ≠ c := by
            rintro rfl
            have hnone : s.table.parent i = none := (h.init i hiP hpid1).1
            rw [hcparent] at hnone
            cases hnone
          refine ⟨(List.mem_erase_of_ne hic).mpr hiP, ?_⟩
          obtain ⟨next, head, heq, -⟩ := reap_eq s.table c
          simp only [processReap, heq, update_of_ne hic]
          exact hpid1
      | false =>
        obtain ⟨kids', htree, hkids'⟩ := h.adoptChild hd hinit
        refine ih (s := { s with table := s.table.adopt d init c }) htree ?_ (fun i hi => ?_)
          (hkeeps.adopt init s P c hcP hdc hcparent hzombie hinit hI)
        · rw [hkids']
          exact hlength
        · obtain ⟨o, siblingNext, children, heq, -⟩ := adopt_eq s.table d c init
          rw [heq]
          exact hinit i hi

/-- `find_process_by_pid` searches the list. -/
theorem Tree.findProcessByPid (h : Tree t k m P kids) {pid : ℕ}
    (hp : t.findProcessByPid pid = some p) :
    p ∈ P ∧ t.pid p = pid := by
  unfold ProcTable.findProcessByPid at hp
  rw [walkFind_eq h.list (length_le_region h.list.nodup)] at hp
  exact ⟨List.mem_of_find?_eq_some hp, by simpa using List.find?_some hp⟩

/-- The rule for the whole of `exit_process`. -/
theorem exitProcess_rule (hkeeps : ReparentKeeps d I)
    (hchildren : ∀ s P, I s P → I { s with table := s.table.withChildren d none } P)
    (hwake : ∀ s P waitQueue sched, I s P → I { s with waitQueue := waitQueue, sched := sched } P)
    (h : Tree s.table k m P kids)
    (hI : I { s with table := { s.table with isZombie := update s.table.isZombie d true } } P) :
    ∃ P' kids', Tree (exitProcess s d).table k m P' kids' ∧ kids' d = [] ∧
      I (exitProcess s d) P' := by
  unfold exitProcess
  have h : Tree { s.table with isZombie := update s.table.isZombie d true } k m P kids :=
    ⟨h.list, h.siblings, h.child, h.parent, h.pids, h.inj, h.init, h.alloc, h.reaped, h.gone⟩
  generalize { s.table with isZombie := update s.table.isZombie d true } = t at hI h
  obtain ⟨waitQueue, sched, hframe⟩ :=
    wakeParent_frame (processReparentChildren { s with table := t } d) d
  rw [hframe]
  suffices hrule : ∃ P' kids', Tree (processReparentChildren { s with table := t } d).table k m P'
      kids' ∧ kids' d = [] ∧ I (processReparentChildren { s with table := t } d) P' by
    obtain ⟨P', kids', htree, hnil, hI⟩ := hrule
    exact ⟨P', kids', htree, hnil, hwake _ _ _ _ hI⟩
  unfold processReparentChildren
  cases hfirst : t.children d with
  | none =>
    have hnil : kids d = [] := by
      have hhead := (h.siblings d).head_eq
      rw [hfirst] at hhead
      exact List.head?_eq_none_iff.mp hhead.symm
    exact ⟨P, kids, h, hnil, hI⟩
  | some c =>
    have hv : Tree (t.withChildren d (some c)) k m P kids := by
      have hsame : t.withChildren d (some c) = t := by
        simp only [ProcTable.withChildren, ← hfirst, update_eq_self]
      rw [hsame]
      exact h
    obtain ⟨P', kids', htree, hnil, hI'⟩ := reparentLoop_rule (s := { s with table := t }) hkeeps
      hv (length_le_region (h.siblings d).nodup)
      (fun i hi => h.findProcessByPid hi) hI
    exact ⟨P', kids', htree, hnil, hchildren _ _ hI'⟩

end Reparent

end Tomahawk.Proc
