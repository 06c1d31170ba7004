import Tomahawk.Proc.ProcessTree

/-!
# Processes over whole runs

What one call can do to the processes: nothing, a new child of the caller, the end of a
zombie child, or the exit of the current process with the reparenting of its children. The
process tree over every run follows, and which processes can lose a living parent.
-/

namespace Tomahawk.Proc

open Function Tomahawk.Lib

variable {V : Type*} {s s' : Procs V} {t t' : ProcTable} {P P' : List PcbPtr}
  {kids : PcbPtr → List PcbPtr} {c d p q : PcbPtr} {creates : Prop} {k m : ℕ} {Q : List PcbPtr}
  {c : PcbPtr}

/-- A process that has exited, whether or not it was reaped. -/
def ProcTable.Dead (t : ProcTable) (p : PcbPtr) : Prop := t.isZombie p = true ∨ p ∈ t.reaped

instance (t : ProcTable) (p : PcbPtr) : Decidable (t.Dead p) := by
  unfold ProcTable.Dead
  infer_instance

/-- The processes in the list were there before, or are new with the given parent. -/
structure NoExit (t t' : ProcTable) (P P' : List PcbPtr) (creates : Prop)
    (caller : Option PcbPtr) : Prop where
  dead : ∀ x, t'.Dead x → t.Dead x
  mem : ∀ c ∈ P', (c ∈ P ∧ t'.parent c = t.parent c ∧ t'.isZombie c = t.isZombie c) ∨
    (creates ∧ t'.parent c = caller)

/-- The process `d` exits: its living children go to another process with pid 1, or have no
parent any more. -/
structure Exits (t t' : ProcTable) (P P' : List PcbPtr) (d : PcbPtr) : Prop where
  dead : ∀ x, t'.Dead x → t.Dead x ∨ x = d
  parent : t'.parent d = t.parent d
  mem : ∀ c ∈ P', c ∈ P ∧ t'.isZombie c = update t.isZombie d true c ∧
    t'.parent c ≠ some d ∧
    (t'.parent c = t.parent c ∨ t'.parent c = none ∨
      ∃ i, i ≠ d ∧ i ∈ P ∧ t.pid i = 1 ∧ t.parent c = some d ∧ t.isZombie c = false ∧
        t'.parent c = some i)

theorem NoExit.refl (creates : Prop) (caller : Option PcbPtr) : NoExit t t P P creates caller :=
  ⟨fun _ hx => hx, fun _ hc => .inl ⟨hc, rfl, rfl⟩⟩

/-- The process tree, with the pid counter and the processes of the threads. -/
structure TreeOk (s : Procs V) (P : List PcbPtr) (kids : PcbPtr → List PcbPtr) : Prop where
  tree : Tree s.table s.kmallocPtr s.nextPid P kids
  pos : 0 < s.nextPid
  owner : ∀ t p, s.process t = some p → p.val < s.kmallocPtr ∧ 1 < s.nextPid
  dead : ∀ p, s.table.Dead p → p.val < s.kmallocPtr

theorem Tree.mono {k' m' : ℕ} (h : Tree t k m P kids) (hk : k ≤ k') (hm : m ≤ m') :
    Tree t k' m' P kids := by
  refine ⟨h.list, h.siblings, h.child, h.parent, fun c hc => ?_, h.inj, h.init, fun c hc => ?_,
    h.reaped, fun c hc => ?_⟩
  · have := h.pids c hc
    omega
  · have := h.alloc c hc
    omega
  · have := h.gone c hc
    exact ⟨this.1, by omega⟩

theorem TreeOk.caller (h : TreeOk s P kids) (hp : getCurrentProcess s = some p) :
    p.val < s.kmallocPtr ∧ 1 < s.nextPid := by
  unfold getCurrentProcess at hp
  obtain ⟨t, -, ht⟩ := Option.bind_eq_some_iff.mp hp
  exact h.owner t p ht

/-- The table after a new process was entered. -/
def ProcTable.enter (t : ProcTable) (p : PcbPtr) (pid : ℕ) (parent : Option PcbPtr) :
    ProcTable :=
  let t := (t.clear p).introduce p pid parent
  match parent with
  | some q => (t.push p).pushChild q p
  | none => t.push p

/-- A new PCB that is not entered changes nothing that the tree is made of. -/
theorem TreeOk.unused (h : TreeOk s P kids) (hp : s.kmallocPtr ≤ p.val) (hk : p.val < k)
    (parent : Option PcbPtr) :
    Tree ((s.table.clear p).introduce p s.nextPid parent) k (s.nextPid + 1) P kids ∧
      NoExit s.table ((s.table.clear p).introduce p s.nextPid parent) P P True parent := by
  have hpP := (h.tree.fresh hp).1
  refine ⟨h.tree.newPcb hp hk (Nat.le_succ _) _ _, fun x hx => ?_, fun c hc => ?_⟩
  · refine hx.imp_left fun hzombie => ?_
    by_cases hxp : x = p
    · subst hxp
      simp [ProcTable.clear, ProcTable.introduce] at hzombie
    · simpa [ProcTable.clear, ProcTable.introduce, update_of_ne hxp] using hzombie
  · have hcp : c ≠ p := fun heq => hpP (heq ▸ hc)
    refine .inl ⟨hc, ?_, ?_⟩
    · simp [ProcTable.clear, ProcTable.introduce, update_of_ne hcp]
    · simp [ProcTable.clear, ProcTable.introduce, update_of_ne hcp]

/-- A new process is entered in the tree. -/
theorem TreeOk.enter (h : TreeOk s P kids) (hp : s.kmallocPtr ≤ p.val) (hk : p.val < k)
    (caller : Option PcbPtr)
    (hcaller : ∀ q, caller = some q → q.val < s.kmallocPtr ∧ 1 < s.nextPid) :
    (∃ kids', Tree (s.table.enter p s.nextPid caller) k (s.nextPid + 1) (p :: P) kids') ∧
      NoExit s.table (s.table.enter p s.nextPid caller) P (p :: P) True caller := by
  obtain ⟨hpP, hkids, hgone⟩ := h.tree.fresh hp
  obtain ⟨-, hunused⟩ := h.unused hp hk caller
  have htree : Tree ((s.table.clear p).introduce p s.nextPid caller) k s.nextPid P kids :=
    h.tree.newPcb hp hk le_rfl _ _
  have hparent : ((s.table.clear p).introduce p s.nextPid caller).parent p = caller :=
    update_self _ _ _
  have hadd := htree.add hpP hkids hgone hk
    (fun c hc => by
      have := h.tree.alloc c hc
      exact Fin.lt_def.mpr (by omega))
    (update_self _ _ _) h.pos
    (fun q hq => by
      have := hcaller q (hparent.symm.trans hq)
      exact Fin.lt_def.mpr (by omega))
    (fun hfirst => by
      rw [hparent]
      cases hcase : caller with
      | none => rfl
      | some q =>
        have := hcaller q hcase
        omega)
  rw [hparent] at hadd
  refine ⟨⟨_, hadd⟩, ?_⟩
  have hsame : (s.table.enter p s.nextPid caller).parent =
        ((s.table.clear p).introduce p s.nextPid caller).parent ∧
      (s.table.enter p s.nextPid caller).isZombie =
        ((s.table.clear p).introduce p s.nextPid caller).isZombie ∧
      (s.table.enter p s.nextPid caller).reaped =
        ((s.table.clear p).introduce p s.nextPid caller).reaped := by
    cases caller <;> exact ⟨rfl, rfl, rfl⟩
  obtain ⟨hsameParent, hsameZombie, hsameReaped⟩ := hsame
  refine ⟨fun x hx => hunused.dead x ?_, fun c hc => ?_⟩
  · unfold ProcTable.Dead at hx ⊢
    rwa [hsameZombie, hsameReaped] at hx
  · rw [hsameParent, hsameZombie]
    rcases List.mem_cons.mp hc with rfl | hcP
    · exact .inr ⟨trivial, hparent⟩
    · exact hunused.mem c hcP

/-- The state after a PCB was taken, whether or not it was entered. -/
theorem TreeOk.grow {kids' : PcbPtr → List PcbPtr} (h : TreeOk s P kids)
    (htree : Tree s'.table k (s.nextPid + 1) P' kids') (hp : s.kmallocPtr ≤ p.val) (hpk : p.val < k)
    (hk : k ≤ s'.kmallocPtr) (hpid : s'.nextPid = s.nextPid + 1)
    (howner : ∀ t r, s'.process t = some r → s.process t = some r ∨ r = p)
    (hdead : ∀ x, s'.table.Dead x → s.table.Dead x) : TreeOk s' P' kids' := by
  have hpos := h.pos
  refine ⟨?_, by omega, fun t r hr => ?_, fun x hx => ?_⟩
  · rw [hpid]
    exact htree.mono hk le_rfl
  · rcases howner t r hr with hold | rfl
    · have := h.owner t r hold
      omega
    · omega
  · have := h.dead x (hdead x hx)
    omega

theorem owner_update {process : TcbPtr → Option PcbPtr} {t u : TcbPtr} {r : PcbPtr}
    (hr : update process t (some p) u = some r) : process u = some r ∨ r = p := by
  by_cases hu : u = t
  · subst hu
    rw [update_self] at hr
    exact .inr (Option.some.inj hr).symm
  · rw [update_of_ne hu] at hr
    exact .inl hr

/-- What a call without an exit leads to. -/
def Evolves (s s' : Procs V) (P : List PcbPtr) (creates : Prop) : Prop :=
  ∃ P' kids', TreeOk s' P' kids' ∧ NoExit s.table s'.table P P' creates (getCurrentProcess s)

section

variable (h : TreeOk s P kids)
include h

/-- The processes stay as they are, and new threads belong to known processes. -/
theorem TreeOk.stay (htable : s'.table = s.table) (hptr : s.kmallocPtr ≤ s'.kmallocPtr)
    (hpid : s'.nextPid = s.nextPid)
    (howner : ∀ t p, s'.process t = some p →
      s.process t = some p ∨ p.val < s.kmallocPtr ∧ 1 < s.nextPid) : Evolves s s' P creates := by
  refine ⟨P, kids, ⟨?_, by rw [hpid]; exact h.pos, fun t p ht => ?_, fun p hp => ?_⟩, ?_⟩
  · rw [htable]
    exact h.tree.mono hptr hpid.ge
  · rcases howner t p ht with hold | hnew
    · have := h.owner t p hold
      omega
    · omega
  · rw [htable] at hp
    exact (h.dead p hp).trans_le hptr
  · rw [htable]
    exact NoExit.refl _ _

/-- Nothing happens to the processes. -/
theorem TreeOk.idle (hsame : s'.table = s.table ∧ s'.kmallocPtr = s.kmallocPtr ∧
    s'.nextPid = s.nextPid ∧ s'.process = s.process) :
    Evolves s s' P creates := by
  obtain ⟨htable, hptr, hpid, hprocess⟩ := hsame
  refine h.stay htable hptr.ge hpid fun t p ht => ?_
  rw [hprocess] at ht
  exact .inl ht

theorem TreeOk.createThread (pid : ℕ) (entry : UInt64) :
    Evolves s (s.orPanic (Proc.createThread s (s.table.findProcessByPid pid) entry)) P creates := by
  rcases createThread_cases s (s.table.findProcessByPid pid) entry with
    hpanic | hnone | ⟨t, k, ctx, hsome, hle, hlt⟩
  · rw [hpanic]
    exact h.idle ⟨rfl, rfl, rfl, rfl⟩
  · rw [hnone]
    exact h.idle ⟨rfl, rfl, rfl, rfl⟩
  · rw [hsome]
    refine h.stay rfl (hle.trans hlt.le) rfl fun u r hr => ?_
    by_cases hu : u = t
    · subst hu
      have hfind : s.table.findProcessByPid pid = some r := by
        simpa [Procs.orPanic, addThread, Procs.bump] using hr
      obtain ⟨hrP, -⟩ := h.tree.findProcessByPid hfind
      have := h.tree.pids r hrP
      exact .inr ⟨h.tree.alloc r hrP, by omega⟩
    · left
      simpa [Procs.orPanic, addThread, Procs.bump, update_of_ne hu] using hr

theorem TreeOk.createProcess (tty : V) (entry : UInt64) (mm : Bool) :
    Evolves s (s.orPanic (Proc.createProcess tty s entry mm)) P True := by
  rcases createProcess_cases s tty entry mm with hpanic | hnone | ⟨p, k, u, hle, hlt, rfl, hmade⟩
  · rw [hpanic]
    exact h.idle ⟨rfl, rfl, rfl, rfl⟩
  · rw [hnone]
    exact h.idle ⟨rfl, rfl, rfl, rfl⟩
  obtain ⟨⟨kids', htree⟩, hnew⟩ := h.enter hle hlt (getCurrentProcess s) (fun q hq => h.caller hq)
  have htable : (initProcess (clearPcb (s.bump k) p) p mm).table.push p =
      s.table.enter p s.nextPid (getCurrentProcess s) := by
    unfold initProcess ProcTable.enter
    have hcaller : getCurrentProcess (clearPcb (s.bump k) p) = getCurrentProcess s := rfl
    rw [hcaller]
    cases getCurrentProcess s <;> rfl
  rw [← htable] at htree hnew
  rcases hmade with hmade | ⟨t, m, ctx, hle', hlt', hmade⟩
  · rw [hmade]
    exact ⟨p :: P, kids', h.grow htree hle hlt le_rfl rfl (fun _ _ => .inl) hnew.dead, hnew⟩
  · rw [hmade]
    exact ⟨p :: P, kids', h.grow htree hle hlt (hle'.trans hlt'.le) rfl
      (fun _ _ => owner_update) hnew.dead, hnew⟩

theorem TreeOk.forkProcess (cloned : Bool) : Evolves s (Proc.forkProcess s cloned).1 P True := by
  rcases forkProcess_cases s cloned with
    hnone | ⟨me, parent, child, k, u, hcurrent, hprocess, hle, hlt, rfl, hfork⟩
  · rw [hnone]
    exact h.idle ⟨rfl, rfl, rfl, rfl⟩
  have hcaller : getCurrentProcess s = some parent := by
    unfold getCurrentProcess
    rw [hcurrent]
    exact hprocess
  obtain ⟨htree, hsame⟩ := h.unused hle hlt (some parent)
  unfold Evolves
  rw [hcaller]
  rcases hfork with ⟨m, mm, hm, hfork⟩ | ⟨t, n, m, mm, w, hle', hlt', hm, rfl, hfork⟩
  · rw [hfork]
    exact ⟨P, kids, h.grow htree hle hlt hm rfl (fun _ _ => .inl) hsame.dead, hsame⟩
  have hkn : k ≤ n := hle'.trans hlt'.le
  rcases hfork with hfork | hfork
  · rw [hfork]
    exact ⟨P, kids, h.grow htree hle hlt hkn rfl (fun _ _ => owner_update) hsame.dead, hsame⟩
  · rw [hfork]
    obtain ⟨⟨kids', htree'⟩, hnew⟩ := h.enter hle hlt (some parent)
      (fun q hq => h.caller (hcaller.trans hq))
    exact ⟨child :: P, kids', h.grow htree' hle hlt (hkn.trans hm) rfl
      (fun _ _ => owner_update) hnew.dead, hnew⟩

end

/-- A zombie stays dead when it is reaped, and nothing else dies. -/
theorem dead_reap (hc : t.isZombie c = true) {x : PcbPtr} (hx : (t.reap c).Dead x) : t.Dead x := by
  obtain ⟨next, head, heq, -⟩ := reap_eq t c
  rw [heq] at hx
  unfold ProcTable.Dead at hx
  dsimp only at hx
  by_cases hxc : x = c
  · subst hxc
    exact .inl hc
  · rw [update_of_ne hxc] at hx
    exact hx.imp_right fun hmem => (List.mem_cons.mp hmem).resolve_left hxc

/-- A call of `waitpid_process` leaves the processes alone, or it reaps a zombie child. -/
theorem TreeOk.waitpid_cases (h : TreeOk s P kids) (pid options : ℤ) (ctx : CpuContext) :
    (∃ waitQueue sched, (waitpidProcess s pid options ctx).1 =
        { s with waitQueue := waitQueue, sched := sched }) ∨
      ∃ parent a c b, kids parent = a ++ c :: b ∧ s.table.isZombie c = true ∧
        (waitpidProcess s pid options ctx).1 =
          processReap { s with table := s.table.unlinkChild parent a.getLast? c } c := by
  rcases waitpidProcess_cases s pid options ctx with
    heq | ⟨parent, first, prev, child, hfirst, hfind, heq⟩ | ⟨me, parent, -, -, heq⟩
  · exact .inl ⟨s.waitQueue, s.sched, heq⟩
  · have hlist := h.tree.siblings parent
    rw [hfirst] at hlist
    rcases walkFindPrev_spec (waitMatches s pid) none hlist
      (length_le_region hlist.nodup) with ⟨hnone, -⟩ | ⟨a, c, b, hkids, htest, hsome⟩
    · rw [hfind] at hnone
      cases hnone
    · rw [hfind, Option.or_none] at hsome
      cases hsome
      simp only [waitMatches, Bool.and_eq_true] at htest
      exact .inr ⟨parent, a, child, b, hkids, htest.2, heq⟩
  · exact .inl ⟨_, _, heq⟩

theorem TreeOk.waitpid (h : TreeOk s P kids) (pid options : ℤ) (ctx : CpuContext) :
    Evolves s (waitpidProcess s pid options ctx).1 P creates := by
  rcases h.waitpid_cases pid options ctx with
    ⟨waitQueue, sched, heq⟩ | ⟨parent, a, c, b, hkids, hzombie, heq⟩
  · rw [heq]
    exact h.idle ⟨rfl, rfl, rfl, rfl⟩
  have htree := h.tree.reapChild hkids
  obtain ⟨siblingNext, children, hunlink⟩ := unlinkChild_eq s.table parent a.getLast? c
  rw [hunlink] at heq htree
  rw [heq]
  let u : ProcTable := { s.table with siblingNext := siblingNext, children := children }
  have hdead : ∀ x, (u.reap c).Dead x → s.table.Dead x :=
    fun x hx => dead_reap (t := u) hzombie hx
  refine ⟨P.erase c, _, ⟨htree, h.pos, h.owner, fun x hx => h.dead x (hdead x hx)⟩, hdead,
    fun x hx => .inl ?_⟩
  obtain ⟨hxc, hxP⟩ := h.tree.list.nodup.mem_erase_iff.mp hx
  obtain ⟨next, head, hreap, -⟩ := reap_eq u c
  dsimp only [processReap]
  rw [hreap]
  exact ⟨hxP, rfl, update_of_ne hxc _ _⟩

/-- What holds all through the reparenting of the children of `d`, which began in the state
`t` with the processes `P`. -/
structure Reparenting (t : ProcTable) (P : List PcbPtr) (d : PcbPtr) (s : Procs V)
    (Q : List PcbPtr) : Prop where
  dead : ∀ x, s.table.Dead x → t.Dead x
  self : s.table.parent d = t.parent d
  mem : ∀ c ∈ Q, c ∈ P ∧ s.table.isZombie c = t.isZombie c ∧ s.table.pid c = t.pid c
  parent : ∀ c ∈ Q, s.table.parent c = t.parent c ∨ s.table.parent c = none ∨
    ∃ i, i ≠ d ∧ i ∈ P ∧ t.pid i = 1 ∧ t.parent c = some d ∧ t.isZombie c = false ∧
      s.table.parent c = some i

theorem Reparenting.reap (h : Reparenting t P d s Q) (hQ : Q.Nodup) (hc : s.table.isZombie c = true)
    : Reparenting t P d (processReap s c) (Q.erase c) := by
  obtain ⟨next, head, heq, -⟩ := reap_eq s.table c
  refine ⟨fun x hx => h.dead x (dead_reap hc hx), ?_, fun x hx => ?_, fun x hx => ?_⟩ <;>
    simp only [processReap, heq]
  · exact h.self
  · obtain ⟨hxc, hxQ⟩ := hQ.mem_erase_iff.mp hx
    simp only [update_of_ne hxc]
    exact h.mem x hxQ
  · exact h.parent x (hQ.mem_erase_iff.mp hx).2

theorem Reparenting.adopt {init : Option PcbPtr} (h : Reparenting t P d s Q) (hc : c ∈ Q)
    (hdc : d < c) (hparent : s.table.parent c = some d) (hliving : s.table.isZombie c = false)
    (hinit : ∀ i, init = some i → i ∈ Q ∧ s.table.pid i = 1) :
    Reparenting t P d { s with table := s.table.adopt d init c } Q := by
  obtain ⟨o, siblingNext, children, heq, ho⟩ := adopt_eq s.table d c init
  rw [heq]
  refine ⟨h.dead, (update_of_ne hdc.ne _ _).trans h.self, h.mem, fun x hx => ?_⟩
  dsimp only
  by_cases hxc : x = c
  · subst hxc
    rw [update_self]
    cases o with
    | none => exact .inr (.inl rfl)
    | some i =>
      -- The child still had its first parent.
      have hfirst : t.parent x = some d := by
        rcases h.parent x hx with hsame | hnone | ⟨j, hjd, -, -, -, -, hj⟩
        · rw [← hsame, hparent]
        · rw [hparent] at hnone
          cases hnone
        · rw [hparent] at hj
          exact absurd (Option.some.inj hj).symm hjd
      obtain ⟨hi, hid⟩ := ho i rfl
      obtain ⟨hiQ, hpid1⟩ := hinit i hi
      obtain ⟨hiP, -, hpidi⟩ := h.mem i hiQ
      have hzombiex := (h.mem x hx).2.1
      exact .inr (.inr ⟨i, hid, hiP, by rw [← hpidi, hpid1], hfirst,
        by rw [← hzombiex, hliving], rfl⟩)
  · rw [update_of_ne hxc]
    exact h.parent x hx

section

variable (h : TreeOk s P kids)
include h

theorem TreeOk.exitProcess (hd : d.val < s.kmallocPtr) :
    ∃ P' kids', TreeOk (Proc.exitProcess s d) P' kids' ∧
      Exits s.table (Proc.exitProcess s d).table P P' d ∧
      (Proc.exitProcess s d).table.isZombie d = true := by
  let t₀ : ProcTable := { s.table with isZombie := update s.table.isZombie d true }
  have hzombie : ∀ c, c ≠ d → t₀.isZombie c = s.table.isZombie c :=
    fun c hc => update_of_ne hc _ _
  have hstart : Reparenting t₀ P d { s with table := t₀ } P :=
    ⟨fun _ hx => hx, rfl, fun _ hc => ⟨hc, rfl, rfl⟩, fun _ _ => .inl rfl⟩
  obtain ⟨P', kids', htree', hkids', hend, hself, hptr, hpid, hprocess⟩ := exitProcess_rule
    (I := fun s' Q => Reparenting t₀ P d s' Q ∧ s'.table.isZombie d = true ∧
      s'.kmallocPtr = s.kmallocPtr ∧ s'.nextPid = s.nextPid ∧ s'.process = s.process)
    ⟨fun s Q c hQ _ hdc hc hI => ⟨hI.1.reap hQ hc, by
      obtain ⟨next, head, heq, -⟩ := reap_eq s.table c
      simp only [processReap, heq, update_of_ne hdc.ne]
      exact hI.2⟩,
    fun init s Q c hc hdc hparent hliving hinit hI =>
      ⟨hI.1.adopt hc hdc hparent hliving hinit, by
        obtain ⟨o, siblingNext, children, heq, -⟩ := adopt_eq s.table d c init
        rw [heq]
        exact hI.2⟩⟩
    (fun s Q hI => ⟨⟨hI.1.dead, hI.1.self, hI.1.mem, hI.1.parent⟩, hI.2⟩)
    (fun s Q _ _ hI => ⟨⟨hI.1.dead, hI.1.self, hI.1.mem, hI.1.parent⟩, hI.2⟩) h.tree
    ⟨hstart, update_self .., rfl, rfl, rfl⟩
  have hdead : ∀ x, (Proc.exitProcess s d).table.Dead x → s.table.Dead x ∨ x = d := by
    intro x hx
    by_cases hxd : x = d
    · exact .inr hxd
    · left
      have hdead := hend.dead x hx
      unfold ProcTable.Dead at hdead ⊢
      rwa [hzombie x hxd] at hdead
  refine ⟨P', kids', ⟨by rw [hptr, hpid]; exact htree', by rw [hpid]; exact h.pos,
    by rw [hptr, hpid, hprocess]; exact h.owner, fun x hx => ?_⟩,
    ⟨hdead, hend.self, fun c hc => ?_⟩, hself⟩
  · rw [hptr]
    rcases hdead x hx with hold | rfl
    · exact h.dead x hold
    · exact hd
  · obtain ⟨hcP, hczombie, -⟩ := hend.mem c hc
    refine ⟨hcP, hczombie, fun hcd => ?_, ?_⟩
    · have hmem := (htree'.parent c hc d hcd).1
      rw [hkids'] at hmem
      cases hmem
    · refine (hend.parent c hc).imp_right fun hmoved => hmoved.imp_right ?_
      rintro ⟨i, hid, hiP, hpid1, hfirst, hliving, hi⟩
      refine ⟨i, hid, hiP, hpid1, hfirst, ?_, hi⟩
      have hcd : c ≠ d := by
        rintro rfl
        have hlt := (h.tree.parent c hcP c hfirst).2
        exact lt_irrefl c hlt
      rw [← hzombie c hcd]
      exact hliving

/-- The exit of a main thread is the exit of its process. -/
theorem TreeOk.threadExit_main (hmain : RunsMain s d) (ctx : CpuContext) :
    ∃ P' kids', TreeOk (schedulerThreadExit s ctx) P' kids' ∧
      Exits s.table (schedulerThreadExit s ctx).table P P' d ∧
      (schedulerThreadExit s ctx).table.isZombie d = true := by
  obtain ⟨sched, halted, heq⟩ := schedulerThreadExit_frame s ctx
  rcases markExit_cases s with ⟨hnone, -⟩ | ⟨d', t, hcurrent, hprocess, hthread, hmark⟩
  · exact absurd hmain (hnone d)
  obtain rfl := hmain.unique ⟨t, hcurrent, hprocess, hthread⟩
  have hended : TreeOk (s.endThread t) P kids := ⟨h.tree, h.pos, h.owner, h.dead⟩
  obtain ⟨P', kids', hok, hexits⟩ := hended.exitProcess (h.owner t d hprocess).1
  rw [heq, hmark]
  exact ⟨P', kids', ⟨hok.tree, hok.pos, hok.owner, hok.dead⟩, hexits⟩

/-- An exit does nothing to the processes, or the current process exits. -/
theorem TreeOk.threadExit (ctx : CpuContext) :
    Evolves s (schedulerThreadExit s ctx) P creates ∨
      ∃ d P' kids', RunsMain s d ∧ TreeOk (schedulerThreadExit s ctx) P' kids' ∧
        Exits s.table (schedulerThreadExit s ctx).table P P' d := by
  rcases markExit_cases s with ⟨-, hmark⟩ | ⟨d, t, hcurrent, hprocess, hthread, -⟩
  · left
    obtain ⟨sched, halted, heq⟩ := schedulerThreadExit_frame s ctx
    rw [heq]
    rcases hmark with ⟨-, hmark⟩ | ⟨t, -, hmark⟩
    · rw [hmark]
      exact h.idle ⟨rfl, rfl, rfl, rfl⟩
    · rw [hmark]
      exact h.idle ⟨rfl, rfl, rfl, rfl⟩
  · have hmain : RunsMain s d := ⟨t, hcurrent, hprocess, hthread⟩
    obtain ⟨P', kids', hok, hexits, -⟩ := h.threadExit_main hmain ctx
    exact .inr ⟨d, P', kids', hmain, hok, hexits⟩

/-- The calls that make a process. -/
def ProcOp.makesProcess : ProcOp V → Bool
  | .createProcess _ _ => true
  | .fork _ => true
  | .sysFork _ => true
  | _ => false

/-- What one call does to the processes. -/
theorem TreeOk.call (tty : V) (op : ProcOp V) :
    Evolves s (s.call tty op) P (op.makesProcess = true) ∨
      ∃ code ctx d P' kids', op = .exit code ctx ∧ RunsMain s d ∧
        TreeOk (s.call tty op) P' kids' ∧ Exits s.table (s.call tty op).table P P' d := by
  have hcreate : ∀ {s'}, Evolves s s' P True → op.makesProcess = true →
      Evolves s s' P (op.makesProcess = true) := by
    rintro s' ⟨P', kids', hok, hno⟩ hop
    exact ⟨P', kids', hok, hno.dead, fun c hc => (hno.mem c hc).imp_right fun hnew => ⟨hop, hnew.2⟩⟩
  by_cases hfiles : op.onFiles = true
  · obtain ⟨files, mm, context, heq⟩ := call_onFiles_frame s tty hfiles
    rw [heq]
    exact .inl (h.idle ⟨rfl, rfl, rfl, rfl⟩)
  cases op with
  | createProcess entry mm => exact .inl (hcreate (h.createProcess tty entry mm) rfl)
  | createThread pid entry => exact .inl (h.createThread pid entry)
  | fork cloned => exact .inl (hcreate (h.forkProcess cloned) rfl)
  | sysFork cloned =>
    simp only [Procs.call]
    rcases sysFork_cases s cloned with heq | ⟨isForkChild, heq⟩
    · rw [heq]
      exact .inl (hcreate (h.forkProcess cloned) rfl)
    · rw [heq]
      exact .inl (h.idle ⟨rfl, rfl, rfl, rfl⟩)
  | yield ctx => exact .inl (h.idle ⟨rfl, rfl, rfl, rfl⟩)
  | tick r => exact .inl (h.idle ⟨rfl, rfl, rfl, rfl⟩)
  | exit code ctx =>
    obtain ⟨exitCode, heq⟩ := call_exit tty s code ctx
    rw [heq]
    have hcode : TreeOk { s with exitCode := exitCode } P kids :=
      ⟨h.tree, h.pos, h.owner, h.dead⟩
    refine hcode.threadExit ctx |>.imp_right ?_
    rintro ⟨d, P', kids', hmain, hok, hexits⟩
    exact ⟨code, ctx, d, P', kids', rfl, hmain, hok, hexits⟩
  | waitpid pid options ctx => exact .inl (h.waitpid pid options ctx)
  | _ => exact absurd rfl hfiles

end

theorem treeOk_boot : TreeOk (Procs.boot : Procs V) [] fun _ => [] := by
  refine ⟨⟨rfl, fun _ => rfl, ?_, ?_, ?_, ?_, ?_, ?_, List.nodup_nil, ?_⟩, Nat.one_pos, ?_, ?_⟩ <;>
    simp [Procs.boot, ProcTable.Dead]

/-- The tree in every state of a run. -/
theorem treeOk_run (tty : V) (ops : List (ProcOp V)) :
    ∃ P kids, TreeOk (run (procStep tty) Procs.boot ops) P kids := by
  refine run_preserves (I := fun s => ∃ P kids, TreeOk s P kids) (fun s op h => ?_)
    ⟨_, _, treeOk_boot⟩
  obtain ⟨P, kids, hok⟩ := h
  unfold procStep
  split_ifs
  · exact ⟨P, kids, hok⟩
  · rcases hok.call tty op with ⟨P', kids', hok', -⟩ | ⟨code, ctx, d, P', kids', -, -, hok', -⟩
    · exact ⟨P', kids', hok'⟩
    · exact ⟨P', kids', hok'⟩

/-- The process tree. In every state of every run the processes in the list have different pids,
a process has a parent exactly when it occurs once in the list of children of that parent and in
no other, the lists end at null, no process is its own ancestor, and no process is reaped
twice. -/
theorem process_tree_wellFormed (tty : V) (ops : List (ProcOp V)) :
    let t := (run (procStep tty) Procs.boot ops).table
    ∃ (P : List PcbPtr) (kids : PcbPtr → List PcbPtr),
      IsList t.next t.processList P ∧ (∀ p, IsList t.siblingNext (t.children p) (kids p)) ∧
      (∀ c ∈ P, ∀ p, t.parent c = some p ↔ (kids p).count c = 1) ∧
      (∀ c ∈ P, ∀ p q, c ∈ kids p → c ∈ kids q → p = q) ∧
      (P.map t.pid).Nodup ∧
      (∀ c, ¬ Relation.TransGen (fun c p => c ∈ P ∧ t.parent c = some p) c c) ∧
      t.reaped.Nodup := by
  intro t
  obtain ⟨P, kids, hok⟩ := treeOk_run tty ops
  have htree := hok.tree
  refine ⟨P, kids, htree.list, htree.siblings, fun c hc p => ?_, fun c _ p q hp hq =>
    htree.kids_unique hp hq, ?_, fun c hcycle => ?_, htree.reaped⟩
  · constructor
    · intro hparent
      exact List.count_eq_one_of_mem (htree.siblings p).nodup (htree.parent c hc p hparent).1
    · intro hcount
      have hmem : c ∈ kids p := List.count_pos_iff.mp (by omega)
      exact (htree.child p c hmem).2
  · exact htree.list.nodup.map_on fun c hc d hd heq => htree.inj c hc d hd heq
  · -- Parents are older than their children.
    have holder : ∀ a b, Relation.TransGen (fun c p => c ∈ P ∧ t.parent c = some p) a b →
        b < a := by
      intro a b hab
      induction hab with
      | single hstep => exact (htree.parent _ hstep.1 _ hstep.2).2
      | tail _ hstep ih => exact (htree.parent _ hstep.1 _ hstep.2).2.trans ih
    exact lt_irrefl c (holder c c hcycle)

/-! ## Orphans -/

/-- A living process has no parent that is a zombie or was reaped. -/
def NoOrphan (t : ProcTable) (P : List PcbPtr) : Prop :=
  ∀ c ∈ P, t.isZombie c = false → ∀ p, t.parent c = some p → ¬ t.Dead p

/-- The exits that leave no orphan: when a process with a living child exits, init, if it is
another process, has not exited itself. -/
def ExitAdopts (s : Procs V) : Prop :=
  match s.sched.current with
  | none => True
  | some t =>
    match s.process t with
    | none => True
    | some d =>
      s.mainThread d = some t →
        (walkFind s.table.siblingNext (fun c => !s.table.isZombie c) kmallocRegionSize
          (s.table.children d)).isSome →
        (s.table.findProcessByPid 1).all (fun i => i == d || !s.table.isZombie i) = true

instance (s : Procs V) : Decidable (ExitAdopts s) := by
  unfold ExitAdopts
  cases s.sched.current with
  | none => exact instDecidableTrue
  | some t =>
    dsimp only
    cases s.process t with
    | none => exact instDecidableTrue
    | some d => infer_instance

/-- The current process, if there is one, has not exited. -/
def CallerLives (s : Procs V) : Prop :=
  (getCurrentProcess s).all (fun p => !decide (s.table.Dead p)) = true

instance (s : Procs V) : Decidable (CallerLives s) := by
  unfold CallerLives
  infer_instance

theorem CallerLives.not_dead (h : CallerLives s) (hp : getCurrentProcess s = some p) :
    ¬ s.table.Dead p := by
  unfold CallerLives at h
  rw [hp] at h
  simpa using h

/-- The calls that make no orphan: a new process has a caller that has not exited, and an exit
finds init alive for the living children. -/
def OrphanMeets (s : Procs V) : ProcOp V → Prop
  | .createProcess _ _ => CallerLives s
  | .fork _ => CallerLives s
  | .sysFork _ => CallerLives s
  | .exit _ _ => ExitAdopts s
  | _ => True

instance (s : Procs V) (op : ProcOp V) : Decidable (OrphanMeets s op) := by
  cases op <;> unfold OrphanMeets <;> infer_instance

theorem NoOrphan.noExit (h : NoOrphan t P) {caller : Option PcbPtr}
    (hno : NoExit t t' P P' creates caller)
    (hcaller : creates → ∀ p, caller = some p → ¬ t.Dead p) : NoOrphan t' P' := by
  intro c hc hliving p hp hdead
  have hdead := hno.dead p hdead
  rcases hno.mem c hc with ⟨hcP, hparent, hzombie⟩ | ⟨hcreates, hparent⟩
  · exact h c hcP (hzombie ▸ hliving) p (hparent ▸ hp) hdead
  · exact hcaller hcreates p (hparent ▸ hp) hdead

theorem NoOrphan.exits (h : NoOrphan t P) (htree : Tree t k m P kids) (hexits : Exits t t' P P' d)
    (hadopts : ∀ c ∈ kids d, t.isZombie c = false → ∀ i ∈ P, t.pid i = 1 → i ≠ d →
      t.isZombie i = false) : NoOrphan t' P' := by
  intro c hc hliving p hp hdead
  obtain ⟨hcP, hzombie, hcd, hparent⟩ := hexits.mem c hc
  have hpd : p ≠ d := fun heq => hcd (heq ▸ hp)
  have hdead : t.Dead p := (hexits.dead p hdead).resolve_right hpd
  have hcne : c ≠ d := by
    rintro rfl
    rw [hzombie, update_self] at hliving
    cases hliving
  rw [update_of_ne hcne] at hzombie
  rcases hparent with hsame | hnone | ⟨i, hid, hiP, hpid1, hfirst, hcliving, hi⟩
  · exact h c hcP (hzombie ▸ hliving) p (hsame ▸ hp) hdead
  · rw [hnone] at hp
    cases hp
  · obtain rfl : i = p := Option.some.inj (hi.symm.trans hp)
    have hinit := hadopts c (htree.parent c hcP d hfirst).1 hcliving i hiP hpid1 hid
    rcases hdead with hzombiei | hreaped
    · rw [hinit] at hzombiei
      cases hzombiei
    · exact (htree.gone i hreaped).1 hiP

/-- The living children that an exit hands on, and where to. -/
theorem TreeOk.exitAdopts (h : TreeOk s P kids) (hmain : RunsMain s d) (hadopts : ExitAdopts s)
    (hc : c ∈ kids d) (hliving : s.table.isZombie c = false) {i : PcbPtr} (hi : i ∈ P)
    (hpid : s.table.pid i = 1) (hid : i ≠ d) : s.table.isZombie i = false := by
  obtain ⟨t, hcurrent, hprocess, hthread⟩ := hmain
  unfold ExitAdopts at hadopts
  simp only [hcurrent, hprocess] at hadopts
  have hfind : s.table.findProcessByPid 1 = some i := by
    have hwalk : s.table.findProcessByPid 1 = P.find? fun p => s.table.pid p == 1 :=
      walkFind_eq h.tree.list (length_le_region h.tree.list.nodup)
    rw [hwalk]
    cases hcase : P.find? fun p => s.table.pid p == 1 with
    | none =>
      have hnone := List.find?_eq_none.mp hcase i hi
      simp [hpid] at hnone
    | some j =>
      have hj : s.table.pid j = 1 := by simpa using List.find?_some hcase
      rw [h.tree.inj j (List.mem_of_find?_eq_some hcase) i hi (by rw [hj, hpid])]
  have hwalk : (walkFind s.table.siblingNext (fun c => !s.table.isZombie c) kmallocRegionSize
      (s.table.children d)).isSome := by
    have hsiblings := h.tree.siblings d
    rw [walkFind_eq hsiblings (length_le_region hsiblings.nodup), List.find?_isSome]
    exact ⟨c, hc, by simp [hliving]⟩
  have hall := hadopts hthread hwalk
  rw [hfind] at hall
  simpa [hid] using hall

/-- One call that meets the condition makes no orphan. -/
theorem NoOrphan.call (h : NoOrphan s.table P) (hok : TreeOk s P kids) (tty : V) (op : ProcOp V)
    (hmeets : OrphanMeets s op) :
    ∃ P' kids', TreeOk (s.call tty op) P' kids' ∧ NoOrphan (s.call tty op).table P' := by
  rcases hok.call tty op with
    ⟨P', kids', hok', hno⟩ | ⟨code, ctx, d, P', kids', rfl, hmain, hok', hexits⟩
  · refine ⟨P', kids', hok', h.noExit hno fun hcreates p hp => ?_⟩
    cases op with
    | createProcess entry mm => exact CallerLives.not_dead hmeets hp
    | fork cloned => exact CallerLives.not_dead hmeets hp
    | sysFork cloned => exact CallerLives.not_dead hmeets hp
    | _ => cases hcreates
  · refine ⟨P', kids', hok', h.exits hok.tree hexits fun c hc hliving i hi hpid hid => ?_⟩
    exact hok.exitAdopts hmain hmeets hc hliving hi hpid hid

/-- Orphans stay collectable. In every run whose calls meet the condition, no living process in
the list has a parent that is a zombie or was reaped. -/
theorem orphans_collectable (tty : V) (ops : List (ProcOp V))
    (hmeets : Guarded (procStep tty) OrphanMeets Procs.boot ops) :
    let t := (run (procStep tty) Procs.boot ops).table
    ∃ P, IsList t.next t.processList P ∧
      ∀ c ∈ P, t.isZombie c = false → ∀ p, t.parent c = some p →
        t.isZombie p = false ∧ p ∉ t.reaped := by
  have hrun : ∃ P kids, TreeOk (run (procStep tty) Procs.boot ops) P kids ∧
      NoOrphan (run (procStep tty) Procs.boot ops).table P := by
    refine run_invariant (I := fun s => ∃ P kids, TreeOk s P kids ∧ NoOrphan s.table P)
      (fun s op h hop => ?_) ⟨[], _, treeOk_boot, by simp [NoOrphan]⟩ hmeets
    obtain ⟨P, kids, hok, hno⟩ := h
    unfold procStep
    split_ifs
    · exact ⟨P, kids, hok, hno⟩
    · exact hno.call hok tty op hop
  obtain ⟨P, kids, hok, hno⟩ := hrun
  refine ⟨P, hok.tree.list, fun c hc hliving p hp => ?_⟩
  have halive := hno c hc hliving p hp
  simpa [ProcTable.Dead] using halive

/-- A context with all registers zero. -/
def zeroContext : CpuContext := ⟨0, 0, 0, 0, 0, 0, 0, 0⟩

/-- Init makes a shell, the shell makes a job and exits. -/
def shellRun : List (ProcOp Unit) :=
  [.createProcess 0 true, .createProcess 0 true, .yield zeroContext, .createProcess 0 true,
    .yield zeroContext, .yield zeroContext, .createProcess 0 true, .exit none zeroContext]

/-- The job goes to init. -/
theorem orphans_collectable_job :
    let t := (run (procStep ()) Procs.boot shellRun).table
    Guarded (procStep ()) OrphanMeets Procs.boot shellRun ∧
      ∃ P, IsList t.next t.processList P ∧
        ∀ c ∈ P, t.isZombie c = false → ∀ p, t.parent c = some p →
          t.isZombie p = false ∧ p ∉ t.reaped := by
  refine ⟨?hmeets, orphans_collectable () shellRun ?hmeets⟩
  decide

/-- Init is killed before the shell runs: when the shell exits, its living job, pid 4, gets the
zombie as its parent. -/
theorem orphan_of_zombie :
    let t := (run (procStep ()) Procs.boot [.createProcess 0 true, .createProcess 0 true,
      .yield zeroContext, .createProcess 0 true, .exit (some 137) zeroContext, .yield zeroContext,
      .createProcess 0 true, .exit none zeroContext]).table
    (t.findProcessByPid 4).map t.isZombie = some false ∧
      ((t.findProcessByPid 4).bind t.parent).map t.pid = some 1 ∧
      ((t.findProcessByPid 4).bind t.parent).map t.isZombie = some true := by
  decide

end Tomahawk.Proc
