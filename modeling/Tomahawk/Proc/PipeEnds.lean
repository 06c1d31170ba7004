import Tomahawk.Proc.Accounting
import Tomahawk.Proc.Pipe

/-!
# Pipe ends

The pools of `pipe.c` and the descriptors of the processes that share its pipes. A ring counts the
open files on its ends; `file_free` lowers the count when the last descriptor of a file goes. An
exit leaves the descriptors alone until the process is reaped, a fork that fails leaves those that
it cloned, and no ring or vnode of a pipe that was made is given back.
-/

namespace Tomahawk.Proc

open Function Tomahawk.Lib

variable {n : ℕ}

/-- The vnodes of open files: an end of the pipe on a ring, or any other. -/
inductive PipeVnode where
  | other
  | read (ring : Fin 32)
  | write (ring : Fin 32)
  deriving DecidableEq

/-- The open files, `pipe_pool` and `pipe_vnode_next`. -/
structure PipeFiles (n : ℕ) where
  files : Files n PipeVnode
  ring : Fin 32 → Pipe
  inUse : Fin 32 → Bool
  vnodeNext : ℕ

/-- A ring without bytes, with as many readers and writers. -/
def Pipe.cleared (ends : ℤ) : Pipe :=
  ⟨fun _ => 0, ⟨0, pipeBufSize_pos⟩, ⟨0, pipeBufSize_pos⟩, ends, ends⟩

/-- The `vop_close` of the vnodes. -/
def vopClose (ring : Fin 32 → Pipe) : Option PipeVnode → Fin 32 → Pipe
  | some (.read r) => update ring r { ring r with readers := (ring r).readers - 1 }
  | some (.write r) => update ring r { ring r with writers := (ring r).writers - 1 }
  | _ => ring

/-- `fd_close`: `file_free` calls `vop_close` with the last reference. -/
def PipeFiles.fdClose (w : PipeFiles n) (p : Fin n) (fd : ℤ) : PipeFiles n :=
  { w with
    files := (Proc.fdClose w.files p fd).1
    ring := match fdGet w.files p fd with
      | some f =>
        if (w.files.pool f).refcount - 1 ≤ 0 then vopClose w.ring (w.files.pool f).vnode
        else w.ring
      | none => w.ring }

/-- The loops that close the open descriptors from `start` on. -/
def PipeFiles.fdCloseFrom (start : ℕ) (w : PipeFiles n) (p : Fin n) : PipeFiles n :=
  (List.finRange 32).foldl
    (fun w fd => if start ≤ fd.val ∧ (w.files.table p fd).isSome then w.fdClose p fd.val else w) w

/-- `pipe_vnode_alloc` -/
def pipeVnodeAlloc (next : ℕ) : ℕ × Bool := if 64 ≤ next then (next, false) else (next + 1, true)

/-- `pipe_create`: the descriptors of the two ends, `-ENOMEM` or `-EMFILE`. The counts of a ring
that goes back to the pool are left out: `pipe_alloc_ring` clears it. -/
def PipeFiles.pipeCreate (w : PipeFiles n) (p : Fin n) :
    PipeFiles n × Except ℤ (Fin 32 × Fin 32) :=
  match firstFin fun r => !w.inUse r with
  | none => (w, .error (-12))
  | some r =>
    let rd := pipeVnodeAlloc w.vnodeNext
    let wr := pipeVnodeAlloc rd.1
    let w := { w with ring := update w.ring r (.cleared 0), vnodeNext := wr.1 }
    if (rd.2 && wr.2) = false then (w, .error (-12))
    else
      match pipeFiles w.files p (.read r) (.write r) with
      | (s, .error e) => ({ w with files := s }, .error e)
      | (s, .ok fds) =>
        ({ w with
          files := s
          ring := update w.ring r (.cleared 1)
          inUse := update w.inUse r true }, .ok fds)

/-- What `pipe_create` comes to. -/
theorem PipeFiles.pipeCreate_cases (w : PipeFiles n) (p : Fin n) :
    (∃ e, (w.pipeCreate p).2 = .error e ∧
      ¬ ((∃ r, w.inUse r = false) ∧ w.vnodeNext + 2 ≤ 64 ∧ w.files.FreePair p) ∧
      (w.pipeCreate p).1.inUse = w.inUse ∧ w.files.SameOpen (w.pipeCreate p).1.files ∧
      ∀ r, (w.pipeCreate p).1.ring r = w.ring r ∨
        w.inUse r = false ∧ ((w.pipeCreate p).1.ring r).writers = 0) ∨
    ∃ r s fds, w.inUse r = false ∧ w.vnodeNext + 2 ≤ 64 ∧
      pipeFiles w.files p (.read r) (.write r) = (s, .ok fds) ∧
      w.pipeCreate p = (⟨s, update w.ring r (.cleared 1), update w.inUse r true,
        w.vnodeNext + 2⟩, .ok fds) := by
  unfold pipeCreate
  cases hr : firstFin fun r => !w.inUse r with
  | none =>
    refine .inl ⟨_, rfl, fun ⟨⟨r, hfree⟩, _⟩ => ?_, rfl, .refl _, fun _ => .inl rfl⟩
    simpa [hfree] using firstFin_eq_none.mp hr r
  | some r =>
    have hfree : w.inUse r = false := by simpa using firstFin_spec hr
    have hring : ∀ r', update w.ring r (.cleared 0) r' = w.ring r' ∨
        w.inUse r' = false ∧ (update w.ring r (.cleared 0) r').writers = 0 := by
      intro r'
      by_cases hr' : r' = r
      · subst hr'
        exact .inr ⟨hfree, by simp [Pipe.cleared]⟩
      · exact .inl (update_of_ne hr' _ _)
    dsimp only
    split_ifs with hvnodes
    · refine .inl ⟨_, rfl, fun ⟨_, hle, _⟩ => ?_, rfl, .refl _, hring⟩
      simp [pipeVnodeAlloc, show ¬ 64 ≤ w.vnodeNext by omega,
        show ¬ 64 ≤ w.vnodeNext + 1 by omega] at hvnodes
    have hnext : w.vnodeNext + 2 ≤ 64 ∧
        (pipeVnodeAlloc (pipeVnodeAlloc w.vnodeNext).1).1 = w.vnodeNext + 2 := by
      unfold pipeVnodeAlloc at hvnodes ⊢
      split_ifs at hvnodes ⊢ <;> simp_all
      omega
    rw [hnext.2]
    rcases pipeFiles_cases w.files p (.read r) (.write r) with
      ⟨e, herror, hpair, hsame⟩ | ⟨_, _, rfd, wfd, -, -, -, -, -, -, hmade⟩
    · rw [← Prod.eta (pipeFiles w.files p (.read r) (.write r)), herror]
      exact .inl ⟨e, rfl, fun hroom => hpair hroom.2.2, rfl, hsame, hring⟩
    · rw [hmade, update_idem]
      exact .inr ⟨r, _, (rfd, wfd), hfree, hnext.1, hmade, rfl⟩

/-! ## Pipes made and closed again -/

/-- A pipe is made, and both descriptors are closed. -/
def PipeFiles.round (w : PipeFiles n) (p : Fin n) : Option (PipeFiles n) :=
  match w.pipeCreate p with
  | (w, .ok (rfd, wfd)) => some ((w.fdClose p rfd.val).fdClose p wfd.val)
  | (_, .error _) => none

/-- So many rounds in a row. -/
def PipeFiles.rounds (p : Fin n) : ℕ → PipeFiles n → Option (PipeFiles n)
  | 0, w => some w
  | k + 1, w => (w.round p).bind (PipeFiles.rounds p k)

variable {w w' : PipeFiles n} {p : Fin n} {s : Files n PipeVnode} {f : Fin 128} {q : Fin n}
  {fd : Fin 32}

/-- The files are as before a round, but a ring and two vnodes are gone. -/
theorem PipeFiles.round_spec (h : w.round p = some w') :
    w'.files.table = w.files.table ∧
      (∀ f, (w'.files.pool f).refcount = (w.files.pool f).refcount) ∧
      (∃ r, w.inUse r = false ∧ w'.inUse = update w.inUse r true) ∧
      w'.vnodeNext = w.vnodeNext + 2 := by
  unfold round at h
  rcases w.pipeCreate_cases p with ⟨e, herror, -⟩ | ⟨r, s, fds, hr, -, hfiles, hmade⟩
  · rw [← Prod.eta (w.pipeCreate p), herror] at h
    cases h
  rw [hmade] at h
  rcases pipeFiles_cases w.files p (.read r) (.write r) with
    ⟨e, herror, -⟩ | ⟨rf, wf, rfd, wfd, hne, hrf, hwf, hfds, hrfd, hwfd, hopened⟩
  · rw [hfiles] at herror
    cases herror
  obtain ⟨hs, hok⟩ := Prod.mk.inj (hfiles.symm.trans hopened)
  cases hok
  cases h
  have hfirst : (Proc.fdClose s p rfd.val).1 = (s.setFd p rfd none).setFile rf ⟨none, 0, 0, 0⟩ := by
    refine fdClose_last ?_ ?_ <;> simp [hs, Files.opened, Files.setFd, Files.setFile, hfds, hne]
  have hsecond : (Proc.fdClose ((s.setFd p rfd none).setFile rf ⟨none, 0, 0, 0⟩) p wfd.val).1 =
      ((s.setFd p rfd none).setFile rf ⟨none, 0, 0, 0⟩ |>.setFd p wfd none).setFile wf
        ⟨none, 0, 0, 0⟩ := by
    refine fdClose_last ?_ ?_ <;>
      simp [hs, Files.opened, Files.setFd, Files.setFile, hfds.symm, hne.symm]
  unfold fdClose
  rw [hfirst, hsecond]
  refine ⟨?_, fun f => ?_, ⟨r, hr, rfl⟩, rfl⟩
  · ext q gd : 2
    change (((s.setFd p rfd none).setFd p wfd none).table q gd) = _
    rw [Files.table_setFd, Files.table_setFd, hs]
    split_ifs with hw hr
    · rw [hw.1, hw.2, hwfd]
    · rw [hr.1, hr.2, hrfd]
    · change (((w.files.setFd p rfd (some rf)).setFd p wfd (some wf)).table q gd) = _
      rw [Files.table_setFd, if_neg hw, Files.table_setFd, if_neg hr]
  · by_cases hf : f = wf
    · simp [hf, Files.setFile, hwf]
    · by_cases hf' : f = rf <;> simp [hs, hf, hf', Files.opened, Files.setFile, Files.setFd, hne, hrf]

/-- The rings that no pipe has had. -/
def PipeFiles.freeRings (w : PipeFiles n) : ℕ :=
  (Finset.univ.filter fun r => w.inUse r = false).card

theorem PipeFiles.rounds_spec {k : ℕ} (h : PipeFiles.rounds p k w = some w')
    (hpair : w.files.FreePair p) :
    w'.files.FreePair p ∧ w'.freeRings + k = w.freeRings ∧ w'.vnodeNext = w.vnodeNext + 2 * k := by
  induction k generalizing w with
  | zero =>
    cases h
    exact ⟨hpair, rfl, rfl⟩
  | succ k ih =>
    obtain ⟨v, hround, hrest⟩ := Option.bind_eq_some_iff.mp h
    obtain ⟨htable, hpool, ⟨r, hr, huse⟩, hnext⟩ := round_spec hround
    obtain ⟨hpair', hrings, hvnodes⟩ := ih hrest (by simpa [Files.FreePair, htable, hpool] using hpair)
    have hfree : v.freeRings + 1 = w.freeRings := by
      have herase : (Finset.univ.filter fun r => v.inUse r = false) =
          (Finset.univ.filter fun r => w.inUse r = false).erase r := by
        ext r'
        by_cases hr' : r' = r <;> simp [huse, hr']
      unfold freeRings
      rw [herase]
      exact Finset.card_erase_add_one (by simp [hr])
    exact ⟨hpair', by omega, by omega⟩

/-- After so many rounds another pipe can be made exactly if as many rings and vnodes were left at
the start: neither goes back to its pool. -/
theorem pipe_again_iff (w w' : PipeFiles n) (p : Fin n) (k : ℕ) (hpair : w.files.FreePair p)
    (hrounds : PipeFiles.rounds p k w = some w') :
    (∃ fds, (w'.pipeCreate p).2 = .ok fds) ↔ k < w.freeRings ∧ w.vnodeNext + 2 * k + 2 ≤ 64 := by
  obtain ⟨hpair', hrings, hnext⟩ := PipeFiles.rounds_spec hrounds hpair
  have hfree : (∃ r, w'.inUse r = false) ↔ 0 < w'.freeRings := by
    simp [PipeFiles.freeRings, Finset.card_pos, Finset.Nonempty]
  rcases w'.pipeCreate_cases p with
    ⟨e, herror, hroom, -⟩ | ⟨r, s, fds, hr, hvnodes, -, hmade⟩
  · refine iff_of_false (by simp [herror]) fun ⟨hk, hv⟩ => hroom ⟨hfree.mpr ?_, ?_, hpair'⟩ <;> omega
  · have := hfree.mp ⟨r, hr⟩
    exact iff_of_true ⟨_, by rw [hmade]⟩ ⟨by omega, by omega⟩

/-- One process without descriptors, and no pipe. -/
def PipeFiles.boot (n : ℕ) : PipeFiles n :=
  ⟨Files.empty n PipeVnode, fun _ => .cleared 0, fun _ => false, 0⟩

theorem PipeFiles.freePair_boot (p : Fin n) : (PipeFiles.boot n).files.FreePair p :=
  ⟨⟨0, 1, by decide, rfl, rfl⟩, 0, 1, by decide, rfl, rfl⟩

/-- After three rounds there is a fourth pipe. -/
theorem pipe_again_thrice : ∃ w, PipeFiles.rounds 0 3 (PipeFiles.boot 1) = some w ∧
    ∃ fds, (w.pipeCreate 0).2 = .ok fds := by
  have hrounds : (PipeFiles.rounds 0 3 (PipeFiles.boot 1)).isSome = true := by decide +kernel
  obtain ⟨w, hw⟩ := Option.isSome_iff_exists.mp hrounds
  exact ⟨w, hw, (pipe_again_iff (PipeFiles.boot 1) w 0 3 (PipeFiles.freePair_boot 0) hw).mpr
    (by decide)⟩

/-- The thirty-third pipe of a process that closes every one. -/
theorem pipe_exhausted : ((PipeFiles.rounds 0 32 (PipeFiles.boot 1)).map fun w =>
    match (w.pipeCreate 0).2 with
    | .ok _ => 0
    | .error e => e) = some (-12) := by
  decide +kernel

/-! ## End of file -/

/-- The ring that an open file writes to. -/
def File.writes (file : File PipeVnode) : Option (Fin 32) :=
  if file.refcount ≤ 0 then none
  else
    match file.vnode with
    | some (.write r) => some r
    | _ => none

/-- The rings that the files write to. -/
def Files.writing (s : Files n PipeVnode) (f : Fin 128) : Option (Fin 32) := (s.pool f).writes

/-- The writers of a ring are the open files on its write end, and a free ring has none. -/
structure PipeFiles.Counted (w : PipeFiles n) : Prop where
  balanced : w.files.Balanced
  writers : excess (fun r => (w.ring r).writers) w.files.writing = 0
  free : ∀ r, w.inUse r = false → ∀ f, w.files.writing f ≠ some r

theorem writing_setFile (s : Files n PipeVnode) (f : Fin 128) (file : File PipeVnode) :
    (s.setFile f file).writing = update s.writing f file.writes := by
  ext g : 1
  exact apply_update (fun _ (x : File PipeVnode) => x.writes) s.pool f file g

/-- A file is replaced by one on the same end. -/
theorem writing_setFile_same {file : File PipeVnode} (h : file.writes = (s.pool f).writes) :
    (s.setFile f file).writing = s.writing := by
  rw [writing_setFile, h]
  exact update_eq_self f s.writing

/-- Another reference to an open file. -/
theorem writing_refer (hpos : 1 ≤ (s.pool f).refcount) : ((s.setFd q fd (some f)).setFile f
      { s.pool f with refcount := (s.pool f).refcount + 1 }).writing = s.writing := by
  refine writing_setFile_same (s := s.setFd q fd (some f)) ?_
  simp [File.writes, Files.setFd, show ¬ (s.pool f).refcount ≤ 0 by omega,
    show ¬ (s.pool f).refcount + 1 ≤ 0 by omega]

theorem writers_setRing (ring : Fin 32 → Pipe) (r : Fin 32) (pipe : Pipe) :
    (fun r' => (update ring r pipe r').writers) =
      update (fun r' => (ring r').writers) r pipe.writers := by
  ext r' : 1
  exact apply_update (fun _ (x : Pipe) => x.writers) ring r pipe r'

theorem PipeFiles.Counted.writers_eq (h : w.Counted) (r : Fin 32) :
    (w.ring r).writers = (places w.files.writing r).card := by
  have hr := congrFun h.writers r
  simp only [excess, Pi.zero_apply] at hr
  omega

theorem PipeFiles.Counted.writers_free (h : w.Counted) {r : Fin 32} (hr : w.inUse r = false) :
    (w.ring r).writers = 0 := by
  rw [h.writers_eq, Int.natCast_eq_zero, Finset.card_eq_zero]
  exact Finset.eq_empty_of_forall_notMem fun f hf => h.free r hr f (mem_places.mp hf)

/-- Other open files on the same ends. -/
theorem PipeFiles.Counted.setFiles (h : w.Counted) (hs : s.Balanced)
    (hwriting : s.writing = w.files.writing) : Counted { w with files := s } :=
  ⟨hs, hwriting ▸ h.writers, hwriting ▸ h.free⟩

theorem writing_fileFree (s : Files n PipeVnode) (f : Fin 128) :
    (fileFree s f).writing =
      if (s.pool f).refcount - 1 ≤ 0 then update s.writing f none else s.writing := by
  unfold fileFree
  dsimp only
  split_ifs with hlast
  · exact writing_setFile s f _
  · refine writing_setFile_same ?_
    simp [File.writes, show ¬ (s.pool f).refcount ≤ 0 by omega,
      show ¬ (s.pool f).refcount ≤ 1 by omega]

theorem PipeFiles.Counted.fdClose (h : w.Counted) (p : Fin n) (fd : ℤ) :
    (w.fdClose p fd).Counted := by
  have hbalanced := h.balanced.fdClose p fd
  unfold PipeFiles.fdClose
  rcases fdGet_cases w.files p fd with ⟨hget, hclose, -⟩ | ⟨gd, f, -, hf, hget, hclose⟩
  · rw [hget, hclose]
    exact h
  have hpos := h.balanced.refcount_pos hf
  have hwriting : (Proc.fdClose w.files p fd).1.writing =
      if (w.files.pool f).refcount - 1 ≤ 0 then update w.files.writing f none
      else w.files.writing := by
    rw [hclose]
    exact writing_fileFree (w.files.setFd p gd none) f
  rw [hget]
  dsimp only
  split_ifs with hlast
  · rw [if_pos hlast] at hwriting
    have hold : w.files.writing f = _ := if_neg (show ¬ (w.files.pool f).refcount ≤ 0 by omega)
    have hsame (hnone : w.files.writing f = none) :
        excess (fun r => (w.ring r).writers) (update w.files.writing f none) = 0 := by
      rw [update_eq_self_iff.mpr hnone.symm]
      exact h.writers
    refine ⟨hbalanced, ?_, fun r hr g => ?_⟩
    · rw [hwriting]
      unfold vopClose
      rcases hvnode : (w.files.pool f).vnode with _ | _ | r | r <;> rw [hvnode] at hold <;>
        dsimp only at hold ⊢
      · exact hsame hold
      · exact hsame hold
      · rw [writers_setRing, update_eq_self_iff.mpr rfl]
        exact hsame hold
      · rw [writers_setRing, excess_count, excess_clear hold, h.writers]
        simp
    · rw [hwriting, update_apply]
      split_ifs
      · simp
      · exact h.free r hr g
  · rw [if_neg hlast] at hwriting
    exact h.setFiles hbalanced hwriting

theorem PipeFiles.Counted.fdCloseFrom (h : w.Counted) (start : ℕ) (p : Fin n) :
    (PipeFiles.fdCloseFrom start w p).Counted := by
  refine List.foldlRecOn (motive := PipeFiles.Counted) _ _ h fun t ht fd _ => ?_
  split_ifs
  · exact ht.fdClose p fd.val
  · exact ht

theorem writing_opened (p : Fin n) (fd : Fin 32) (file : File PipeVnode) :
    (s.opened p fd f file).writing = update s.writing f file.writes :=
  writing_setFile s f file

theorem Files.SameOpen.writing {s' : Files n PipeVnode} (h : s.SameOpen s') :
    s'.writing = s.writing := by
  ext f : 1
  rcases h.pool f with hsame | ⟨hold, hnew⟩
  · exact congrArg File.writes hsame
  · exact (if_pos hnew.le).trans (if_pos hold.le).symm

theorem PipeFiles.Counted.pipeCreate (h : w.Counted) (p : Fin n) : (w.pipeCreate p).1.Counted := by
  rcases w.pipeCreate_cases p with
    ⟨-, -, -, huse, hsame, hring⟩ | ⟨r, s, fds, hr, -, hfiles, hmade⟩
  · have hwriters : (fun r => ((w.pipeCreate p).1.ring r).writers) = fun r => (w.ring r).writers := by
      ext r
      rcases hring r with hring | ⟨hfree, hzero⟩
      · rw [hring]
      · rw [hzero, h.writers_free hfree]
    refine ⟨hsame.excess.trans h.balanced, ?_, ?_⟩
    · rw [hsame.writing, hwriters]
      exact h.writers
    · rw [hsame.writing, huse]
      exact h.free
  have hbalanced := h.balanced.pipeFiles p (.read r) (.write r)
  rw [hfiles] at hbalanced
  rcases pipeFiles_cases w.files p (.read r) (.write r) with
    ⟨e, herror, -⟩ | ⟨rf, wf, rfd, wfd, hne, hrf, hwf, -, -, -, hopened⟩
  · rw [hfiles] at herror
    cases herror
  have hnone : ∀ {f}, (w.files.pool f).refcount = 0 → w.files.writing f = none := fun hf =>
    if_pos hf.le
  have hwriting : s.writing = update w.files.writing wf (some r) := by
    rw [(Prod.mk.inj (hfiles.symm.trans hopened)).1, writing_opened, writing_opened,
      show File.writes ⟨some (.read r), 0, 0, 1⟩ = w.files.writing rf from (hnone hrf).symm,
      update_eq_self]
    rfl
  rw [hmade]
  refine ⟨hbalanced, ?_, fun r' hr' f => ?_⟩
  · rw [hwriting, writers_setRing, excess_count, excess_fill (hnone hwf), h.writers,
      h.writers_free hr]
    simp [Pipe.cleared]
  · dsimp only at hr' ⊢
    rw [update_apply] at hr'
    split_ifs at hr' with heq
    rw [hwriting, update_apply]
    split_ifs
    · exact fun hsome => heq (Option.some.inj hsome).symm
    · exact h.free r' hr' f

/-- What a PCB is: a process that has not exited, one that has, or no process. Of the last kind are
memory that is not in use and a PCB that a failed fork left behind. -/
inductive PcbKind where
  | running
  | exited
  | absent
  deriving DecidableEq

/-- The pipes and the PCBs. -/
structure PipeProcs (n : ℕ) extends PipeFiles n where
  kind : Fin n → PcbKind

/-- The PCB can become a new process. -/
def PipeProcs.New (w : PipeProcs n) (p : Fin n) : Prop :=
  w.kind p = .absent ∧ ∀ fd, w.files.table p fd = none

instance (w : PipeProcs n) (p : Fin n) : Decidable (w.New p) := inferInstanceAs (Decidable (_ ∧ _))

/-- Pipes and processes at boot. -/
def PipeProcs.boot (n : ℕ) : PipeProcs n := ⟨PipeFiles.boot n, fun _ => .absent⟩

/-- What processes do to descriptors and pipes. A fork is `done` when it returns the child; the
other ends after `fd_clone` return -1. The boot code opens files without a process. `transfer` is
the part of reads and writes in the bytes of a ring and in its indices. -/
inductive PipeEndOp (n : ℕ) where
  | start (p : Fin n)
  | fork (p child : Fin n) (done : Bool)
  | exit (p : Fin n)
  | reap (p : Fin n)
  | exec (p : Fin n)
  | pipe (p : Fin n)
  | open (p : Option (Fin n)) (flags : ℕ)
  | dup (p : Fin n) (fd : ℤ)
  | close (p : Fin n) (fd : ℤ)
  | transfer (r : Fin 32) (buf : ℕ → UInt8) (rd wr : Fin pipeBufSize)

/-- One such call. `scheduler_thread_exit` keeps the descriptors, and `process_reap` closes them.
Nothing reaps the PCB of a failed fork: it is in no list. -/
def pipeEndStep (w : PipeProcs n) : PipeEndOp n → PipeProcs n
  | .start p =>
    if w.New p then
      { w with
        files := fdInitStdio w.files p .other
        kind := update w.kind p .running }
    else w
  | .fork p child done =>
    if child ≠ p ∧ w.New child then
      { w with
        files := fdClone w.files p child
        kind := update w.kind child (if done then .running else .absent) }
    else w
  | .exit p => { w with kind := update w.kind p .exited }
  | .reap p =>
    if w.kind p = .exited then ⟨PipeFiles.fdCloseFrom 0 w.toPipeFiles p, w.kind⟩ else w
  | .exec p => ⟨PipeFiles.fdCloseFrom 3 w.toPipeFiles p, w.kind⟩
  | .pipe p => ⟨(w.toPipeFiles.pipeCreate p).1, w.kind⟩
  | .open (some p) flags => { w with files := (sysOpen w.files p .other flags).1 }
  | .open none flags =>
    match fileAlloc w.files .other flags with
    | (_, none) => w
    | (files, some f) => { w with files := files.release f }
  | .dup p fd => { w with files := (fdDup w.files p fd).1 }
  | .close p fd => ⟨w.toPipeFiles.fdClose p fd, w.kind⟩
  | .transfer r buf rd wr =>
    { w with ring := update w.ring r { w.ring r with buf := buf, rd := rd, wr := wr } }

/-- A file that is on no pipe is opened. -/
theorem writing_opened_other (hf : (s.pool f).refcount = 0) (p : Fin n) (fd : Fin 32) (flags : ℕ) :
    (s.opened p fd f ⟨some .other, 0, flags, 1⟩).writing = s.writing := by
  rw [writing_opened]
  exact update_eq_self_iff.mpr (show none = s.writing f from (if_pos hf.le).symm)

theorem writing_stdio (s : Files n PipeVnode) (p : Fin n) (fd : Fin 32) (flags : ℕ) :
    (stdio s p fd .other flags).writing = s.writing := by
  unfold stdio
  rcases fileAlloc_cases s .other flags with ⟨hnone, -⟩ | ⟨f, hf, hsome⟩
  · rw [hnone]
  · rw [hsome]
    exact writing_opened_other hf p fd flags

theorem PipeFiles.Counted.step {w : PipeProcs n} (h : w.toPipeFiles.Counted) (op : PipeEndOp n) :
    (pipeEndStep w op).toPipeFiles.Counted := by
  cases op with
  | start p =>
    unfold pipeEndStep
    dsimp only
    split_ifs with hnew
    · refine h.setFiles (h.balanced.fdInitStdio hnew.2 .other).1 ?_
      exact (writing_stdio _ p 2 1).trans ((writing_stdio _ p 1 1).trans (writing_stdio _ p 0 0))
    · exact h
  | fork p child done =>
    unfold pipeEndStep
    dsimp only
    by_cases hnew : child ≠ p ∧ w.New child
    · rw [if_pos hnew]
      refine h.setFiles (h.balanced.fdClone p hnew.2.2) ?_
      -- The files of the parent keep their references while the clone goes on.
      refine (List.foldlRecOn (motive := fun t : Files n PipeVnode => t.writing = w.files.writing ∧
        t.table p = w.files.table p ∧ ∀ f, (w.files.pool f).refcount ≤ (t.pool f).refcount) _ _
        ⟨rfl, rfl, fun _ => le_rfl⟩ ?_).1
      rintro t ⟨hwriting, htable, hle⟩ i -
      unfold cloneStep
      cases hf : t.table p i with
      | none => exact ⟨hwriting, htable, hle⟩
      | some f =>
        have hpos := h.balanced.refcount_pos (htable ▸ hf)
        have hlef := hle f
        refine ⟨?_, ?_, fun g => ?_⟩
        · exact (writing_refer (hpos.trans hlef)).trans hwriting
        · simpa [Files.setFile, Files.setFd, hnew.1.symm] using htable
        · by_cases hg : g = f
          · subst hg
            simp [Files.setFile, Files.setFd]
            omega
          · simpa [Files.setFile, Files.setFd, hg] using hle g
    · rw [if_neg hnew]
      exact h
  | exit p => exact h
  | reap p =>
    simp only [pipeEndStep]
    split_ifs
    · simpa only using h.fdCloseFrom 0 p
    · exact h
  | exec p => simpa only [pipeEndStep] using h.fdCloseFrom 3 p
  | pipe p => exact h.pipeCreate p
  | «open» o flags =>
    rcases o with _ | p
    · simp only [pipeEndStep]
      rcases fileAlloc_cases w.files .other flags with ⟨hnone, -⟩ | ⟨f, hf, hsome⟩
      · rw [hnone]
        exact h
      · rw [hsome]
        have hsame := Files.SameOpen.release hf ⟨some .other, 0, flags, 1⟩
        exact h.setFiles (hsame.excess.trans h.balanced) hsame.writing
    refine h.setFiles (h.balanced.sysOpen p .other flags) ?_
    rcases sysOpen_cases w.files p .other flags with hsame | ⟨fd, f, -, hf, hopened⟩
    · exact hsame.writing
    · rw [hopened]
      exact writing_opened_other hf p fd flags
  | dup p fd =>
    refine h.setFiles (h.balanced.fdDup p fd) ?_
    unfold fdDup
    rcases fdGet_cases w.files p fd with ⟨hget, -⟩ | ⟨gd, f, -, hf, hget, -⟩
    · rw [hget]
    · have hpos := h.balanced.refcount_pos hf
      rw [hget]
      dsimp only
      rcases fdAlloc_cases w.files p f with ⟨hfull, -⟩ | ⟨fd, -, hdup⟩
      · rw [hfull]
      · rw [hdup]
        exact writing_refer hpos
  | close p fd => exact h.fdClose p fd
  | transfer r buf rd wr =>
    refine ⟨h.balanced, ?_, h.free⟩
    change excess (fun r' => (update w.ring r _ r').writers) _ = 0
    rw [writers_setRing, update_eq_self_iff.mpr rfl]
    exact h.writers

/-- The descriptor is one of the write end of the pipe on `r`. -/
def PipeFiles.WritesTo (w : PipeFiles n) (r : Fin 32) (p : Fin n) (fd : Fin 32) : Prop :=
  ((w.files.table p fd).bind fun f => (w.files.pool f).vnode) = some (.write r)

instance (w : PipeFiles n) (r : Fin 32) (p : Fin n) (fd : Fin 32) : Decidable (w.WritesTo r p fd) :=
  inferInstanceAs (Decidable (_ = _))

/-- Once no process that runs has a descriptor of the write end, a read from the drained pipe ends
with no byte exactly if neither a process that exited still has one, nor the PCB of a failed fork:
an exit closes nothing, and a fork does not undo its clone. -/
theorem pipe_eof_iff (ops : List (PipeEndOp n)) (w : PipeProcs n) (r : Fin 32) (nbyte : ℕ)
    (hreach : w = run pipeEndStep (PipeProcs.boot n) ops)
    (hdrained : (w.ring r).rd = (w.ring r).wr)
    (hclosed : ∀ p fd, w.WritesTo r p fd → w.kind p ≠ .running) :
    (pipeVopRead (w.ring r) nbyte).2 = some [] ↔
      ∀ p, w.kind p = .exited ∨ w.kind p = .absent → ∀ fd, ¬ w.WritesTo r p fd := by
  have h : w.toPipeFiles.Counted := by
    rw [hreach]
    refine run_preserves (I := fun w : PipeProcs n => w.toPipeFiles.Counted)
      (fun w op hw => hw.step op) ⟨Files.balanced_empty n _, ?_, fun _ _ _ h => by cases h⟩
    ext r
    simp [excess, places, Files.writing, File.writes, PipeProcs.boot, PipeFiles.boot, Files.empty,
      Pipe.cleared]
  have hread : (pipeVopRead (w.ring r) nbyte).2 = some [] ↔ (w.ring r).writers ≤ 0 := by
    unfold pipeVopRead
    by_cases hwriters : 0 < (w.ring r).writers
    · simp [hdrained, hwriters]
    · simp [hdrained, hwriters, not_lt.mp hwriters]
  rw [hread, h.writers_eq, Int.natCast_nonpos_iff, Finset.card_eq_zero,
    Finset.eq_empty_iff_forall_notMem]
  constructor
  · intro hnone p _ fd hwriter
    obtain ⟨f, hf, hvnode⟩ := Option.bind_eq_some_iff.mp hwriter
    have hpos := h.balanced.refcount_pos hf
    refine hnone f (mem_places.mpr ?_)
    simp [Files.writing, File.writes, hvnode, show ¬ (w.files.pool f).refcount ≤ 0 by omega]
  · intro hno f hf
    have hwrites : w.files.writing f = some r := mem_places.mp hf
    unfold Files.writing File.writes at hwrites
    split_ifs at hwrites with hpos
    have hvnode : (w.files.pool f).vnode = some (.write r) := by
      split at hwrites
      · rename_i heq
        rw [heq, Option.some.inj hwrites]
      · cases hwrites
    -- An open file has a descriptor.
    have hcount := congrFun h.balanced f
    have hplaces : (places (fun x : Fin n × Fin 32 => w.files.table x.1 x.2) f).Nonempty := by
      rw [← Finset.card_pos]
      simp only [Files.excess, excess, Pi.zero_apply] at hcount
      omega
    obtain ⟨⟨p, fd⟩, hx⟩ := hplaces
    rw [mem_places] at hx
    have hwriter : w.WritesTo r p fd := Option.bind_eq_some_iff.mpr ⟨f, hx, hvnode⟩
    have hkind := hclosed p fd hwriter
    refine hno p ?_ fd hwriter
    cases hk : w.kind p with
    | running => exact absurd hk hkind
    | exited => exact .inl rfl
    | absent => exact .inr rfl

/-- A process makes a pipe, forks, and closes the write end; the child exits, and is reaped. -/
def eofRun (done : Bool) : List (PipeEndOp 2) :=
  [.start ⟨0, Nat.two_pos⟩, .pipe ⟨0, Nat.two_pos⟩, .fork ⟨0, Nat.two_pos⟩ (.last 1) done,
    .close ⟨0, Nat.two_pos⟩ 4, .exit (.last 1), .reap (.last 1)]

theorem pipe_eof_reaped :
    (pipeVopRead ((run pipeEndStep (PipeProcs.boot 2) (eofRun true)).ring 0) 1).2 = some [] := by
  exact (pipe_eof_iff (eofRun true) _ 0 1 rfl (by decide +kernel) (by decide +kernel)).mpr
    (by decide +kernel)

/-- Before the child is reaped the read waits, and so it does when the fork fails after the
clone. -/
theorem pipe_waits_for_nobody :
    (pipeVopRead ((run pipeEndStep (PipeProcs.boot 2) ((eofRun true).take 5)).ring 0) 1).2 = none ∧
      (pipeVopRead ((run pipeEndStep (PipeProcs.boot 2) ((eofRun false).take 4)).ring 0) 1).2 =
        none := by
  decide +kernel

/-! ## The calls of the process model -/

/-- What a PCB is to the process table, given the process list. -/
def kindOf (t : ProcTable) (P : List PcbPtr) (p : PcbPtr) : PcbKind :=
  if t.Dead p then .exited else if P.contains p then .running else .absent

/-- The descriptors and the PCBs are those of the process model, where memory that is not in use
has no descriptors. -/
structure Mirrors (w : PipeProcs kmallocRegionSize) (s : Procs PipeVnode) (P : List PcbPtr) :
    Prop where
  files : w.files = s.files
  kind : w.kind = kindOf s.table P
  unused : ∀ p : PcbPtr, s.kmallocPtr ≤ p.val → ∀ fd, s.files.table p fd = none

/-- The process list is known, and calls on descriptors and pipes lead to the same files. -/
def Followed (w : PipeProcs kmallocRegionSize) (s : Procs PipeVnode) : Prop :=
  ∃ P ops, IsList s.table.next s.table.processList P ∧ Mirrors (run pipeEndStep w ops) s P

theorem PipeFiles.files_fdCloseFrom (start : ℕ) (w : PipeFiles n) (p : Fin n) :
    (PipeFiles.fdCloseFrom start w p).files = Proc.fdCloseFrom start w.files p := by
  refine (List.foldl_hom PipeFiles.files fun w fd => ?_).symm
  split_ifs <;> rfl

/-- A new PCB is not dead. -/
theorem dead_clear {t u : ProcTable} {p : PcbPtr} (hp : ¬ t.Dead p)
    (hzombie : u.isZombie = (t.clear p).isZombie) (hreaped : u.reaped = t.reaped) (x : PcbPtr) :
    u.Dead x ↔ t.Dead x := by
  unfold ProcTable.Dead at hp ⊢
  rw [hzombie, hreaped]
  by_cases hx : x = p
  · subst hx
    rw [not_or] at hp
    simp [ProcTable.clear, hp]
  · simp [ProcTable.clear, hx]

/-- A PCB enters the list. -/
theorem kindOf_cons {t u : ProcTable} {P : List PcbPtr} {p : PcbPtr} (hp : ¬ t.Dead p)
    (hdead : ∀ x, u.Dead x ↔ t.Dead x) :
    kindOf u (p :: P) = update (kindOf t P) p .running := by
  ext x : 1
  unfold kindOf
  by_cases hx : x = p
  · subst hx
    simp [hdead, hp]
  · simp [hdead, hx]

theorem kindOf_congr {t u : ProcTable} (hdead : ∀ x, u.Dead x ↔ t.Dead x) (P : List PcbPtr) :
    kindOf u P = kindOf t P := by
  ext x : 1
  simp only [kindOf, hdead]

section

variable {s s' : Procs PipeVnode} {w : PipeProcs kmallocRegionSize} {P : List PcbPtr}
  {kids : PcbPtr → List PcbPtr} (h : Mirrors w s P)
include h

theorem Mirrors.congr (hfiles : s'.files = s.files) (htable : s'.table = s.table)
    (hptr : s.kmallocPtr ≤ s'.kmallocPtr) : Mirrors w s' P := by
  refine ⟨h.files.trans hfiles.symm, by rw [htable]; exact h.kind, fun p hp fd => ?_⟩
  rw [hfiles]
  exact h.unused p (hptr.trans hp) fd

theorem Mirrors.stay (hok : TreeOk s P kids) (hfiles : s'.files = s.files)
    (htable : s'.table = s.table) (hptr : s.kmallocPtr ≤ s'.kmallocPtr) : Followed w s' :=
  ⟨P, [], by rw [htable]; exact hok.tree.list, h.congr hfiles htable hptr⟩

/-- Memory that is not in use can become a process. -/
theorem Mirrors.new (hok : TreeOk s P kids) {p : PcbPtr} (hp : s.kmallocPtr ≤ p.val) :
    w.New p ∧ ¬ s.table.Dead p := by
  have hdead : ¬ s.table.Dead p := fun hdead => by
    have := hok.dead p hdead
    omega
  refine ⟨⟨?_, fun fd => ?_⟩, hdead⟩
  · simp [h.kind, kindOf, hdead, (hok.tree.fresh hp).1]
  · rw [h.files]
    exact h.unused p hp fd

/-- A fork that comes to `fd_clone` is one of the two forks of the pipes. -/
theorem Mirrors.forkProcess (hok : TreeOk s P kids) (cloned : Bool) :
    Followed w (Proc.forkProcess s cloned).1 := by
  rcases forkProcess_cases s cloned with
    hnone | ⟨me, parent, child, k, u, hcurrent, hprocess, hle, hlt, rfl, hfork⟩
  · rw [hnone]
    exact h.stay hok rfl rfl le_rfl
  obtain ⟨hnew, hdead⟩ := h.new hok hle
  have hchild : child ∉ P := (hok.tree.fresh hle).1
  have hlist : IsList (s.table.clear child).next s.table.processList P :=
    isList_clear (u := s.table.clear child) hok.tree.list hchild rfl rfl
  have hparent : child ≠ parent := by
    rintro rfl
    have := (hok.owner me child hprocess).1
    omega
  have hstep : ∀ (done : Bool) (s' : Procs PipeVnode) (P' : List PcbPtr), k ≤ s'.kmallocPtr →
      s'.files = fdClone (s.files.clearTable child) parent child →
      IsList s'.table.next s'.table.processList P' →
      kindOf s'.table P' = update w.kind child (if done then .running else .absent) →
      Followed w s' := by
    intro done s' P' hk hfiles hlist hkind
    rw [Files.clearTable_eq (h.unused child hle)] at hfiles
    refine ⟨P', [.fork parent child done], hlist, ?_⟩
    have hrun : run pipeEndStep w [.fork parent child done] = { w with
        files := fdClone w.files parent child
        kind := update w.kind child (if done then .running else .absent) } :=
      if_pos ⟨hparent, hnew⟩
    rw [hrun]
    refine ⟨by rw [hfiles, h.files], hkind.symm, fun q hq fd => ?_⟩
    have hqc : q ≠ child := by
      rintro rfl
      omega
    rw [hfiles, table_fdClone hqc]
    exact h.unused q (by omega) fd
  have hstill : ∀ u : ProcTable, u.isZombie = (s.table.clear child).isZombie →
      u.reaped = s.table.reaped → ∀ x, u.Dead x ↔ s.table.Dead x := fun u => dead_clear hdead
  have hfailed : ∀ u : ProcTable, u.isZombie = (s.table.clear child).isZombie →
      u.reaped = s.table.reaped → kindOf u P = update w.kind child .absent := by
    intro u hzombie hreaped
    rw [update_eq_self_iff.mpr hnew.1.symm, h.kind]
    exact kindOf_congr (hstill u hzombie hreaped) P
  rcases hfork with ⟨m, mm, hm, hfork⟩ | ⟨t, l, m, mm, v, hle', hlt', hm, rfl, hfork | hfork⟩
  · rw [hfork]
    exact hstep false _ P hm rfl hlist (hfailed _ rfl rfl)
  · rw [hfork]
    exact hstep false _ P (hle'.trans hlt'.le) rfl hlist (hfailed _ rfl rfl)
  · rw [hfork]
    refine hstep true _ (child :: P) (hle'.trans (hlt'.le.trans hm)) rfl (hlist.push hchild) ?_
    rw [h.kind]
    exact kindOf_cons hdead (hstill _ rfl rfl)

/-- `process_reap` takes a dead process off the list. -/
theorem Mirrors.reap {c : PcbPtr} (hc : s.table.isZombie c = true) :
    Mirrors (pipeEndStep w (.reap c)) (processReap s c) (P.erase c) := by
  have hkind : w.kind c = .exited := by
    rw [h.kind]
    exact if_pos (.inl hc)
  obtain ⟨next, head, heq, -⟩ := reap_eq s.table c
  have hstill : ∀ x, (s.table.reap c).Dead x ↔ s.table.Dead x := by
    intro x
    unfold ProcTable.Dead
    by_cases hx : x = c <;> simp [heq, hx, hc]
  simp only [pipeEndStep, hkind, if_true]
  refine ⟨?_, ?_, fun q hq fd => ?_⟩
  · simp only [PipeFiles.files_fdCloseFrom, h.files, processReap, fdCloseAll]
  · ext x : 1
    simp only [h.kind, kindOf, processReap, hstill]
    by_cases hx : x = c
    · subst hx
      rw [if_pos (.inl hc), if_pos (.inl hc)]
    · simp only [List.contains_iff_mem, List.mem_erase_of_ne hx]
  · change (fdCloseFrom 0 s.files c).table q fd = none
    rw [table_fdCloseFrom, h.unused q hq, ite_self]

theorem Mirrors.waitpid (hok : TreeOk s P kids) (pid options : ℤ) (ctx : CpuContext) :
    Followed w (waitpidProcess s pid options ctx).1 := by
  rcases hok.waitpid_cases pid options ctx with
    ⟨waitQueue, sched, heq⟩ | ⟨parent, a, c, b, hkids, hc, heq⟩
  · rw [heq]
    exact h.stay hok rfl rfl le_rfl
  rw [heq]
  refine ⟨P.erase c, [.reap c], (hok.tree.reapChild hkids).list, ?_⟩
  obtain ⟨siblingNext, children, hunlink⟩ := unlinkChild_eq s.table parent a.getLast? c
  rw [hunlink]
  exact Mirrors.reap (s := { s with table := { s.table with
    siblingNext := siblingNext, children := children } }) ⟨h.files, h.kind, h.unused⟩ hc

/-- The exit of a process, which reaps its dead children. -/
theorem Mirrors.exitProcess (hok : TreeOk s P kids) (d : PcbPtr) :
    Followed w (Proc.exitProcess s d) := by
  have hstart : Mirrors (pipeEndStep w (.exit d))
      { s with table := { s.table with isZombie := update s.table.isZombie d true } } P := by
    refine ⟨h.files, ?_, h.unused⟩
    ext x : 1
    by_cases hx : x = d <;> simp [pipeEndStep, h.kind, kindOf, ProcTable.Dead, hx]
  obtain ⟨P', kids', htree, -, ops, hmirrors⟩ := exitProcess_rule
    (I := fun s' Q => ∃ ops, Mirrors (run pipeEndStep w ops) s' Q) (d := d)
    ⟨fun s Q c _ _ _ hc hI => hI.elim fun ops hI => ⟨ops ++ [.reap c], by
        rw [run_append]
        exact hI.reap hc⟩,
      fun init s Q c _ _ _ _ _ hI => hI.imp fun ops hI => by
        obtain ⟨o, siblingNext, children, heq, -⟩ := adopt_eq s.table d c init
        rw [heq]
        exact ⟨hI.files, hI.kind, hI.unused⟩⟩
    (fun s Q hI => hI.imp fun ops hI => ⟨hI.files, hI.kind, hI.unused⟩)
    (fun s Q _ _ hI => hI.imp fun ops hI => ⟨hI.files, hI.kind, hI.unused⟩) hok.tree
    ⟨[.exit d], hstart⟩
  exact ⟨P', ops, htree.list, hmirrors⟩

theorem Mirrors.threadExit (hok : TreeOk s P kids) (ctx : CpuContext) :
    Followed w (schedulerThreadExit s ctx) := by
  obtain ⟨sched, halted, heq⟩ := schedulerThreadExit_frame s ctx
  have hmark : Followed w (Proc.markExit s) := by
    rcases markExit_cases s with ⟨-, ⟨-, hmark⟩ | ⟨t, -, hmark⟩⟩ | ⟨d, t, -, -, -, hmark⟩
    · rw [hmark]
      exact h.stay hok rfl rfl le_rfl
    · rw [hmark]
      exact h.stay hok rfl rfl le_rfl
    · rw [hmark]
      exact Mirrors.exitProcess (s := s.endThread t) ⟨h.files, h.kind, h.unused⟩
        ⟨hok.tree, hok.pos, hok.owner, hok.dead⟩ d
  obtain ⟨P', ops, hlist, hmirrors⟩ := hmark
  rw [heq]
  exact ⟨P', ops, hlist, hmirrors.files, hmirrors.kind, hmirrors.unused⟩

end

theorem mirrors_boot : Mirrors (PipeProcs.boot kmallocRegionSize) Procs.boot [] := by
  refine ⟨rfl, ?_, fun _ _ _ => rfl⟩
  ext p : 1
  simp [PipeProcs.boot, kindOf, ProcTable.Dead, Procs.boot]

end Tomahawk.Proc
