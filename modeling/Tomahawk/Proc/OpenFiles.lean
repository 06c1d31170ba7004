import Tomahawk.Proc.Files
import Tomahawk.Lib.References
import Mathlib.Algebra.Ring.Int.Defs
import Mathlib.Data.Fintype.Prod

/-!
# Shared open files

The functions of `fd.c` and `pipe.c` by which several descriptors come to share a
`struct file`, and the count of its descriptors.
-/

namespace Tomahawk.Proc

open Function Tomahawk.Lib

variable {n : ℕ} {V : Type*}

/-- The zeroes in the descriptor table of a new process. -/
def Files.clearTable (s : Files n V) (p : Fin n) : Files n V :=
  { s with table := update s.table p fun _ => none }

/-- A table of zeroes stays as it is. -/
theorem Files.clearTable_eq {s : Files n V} {p : Fin n} (h : ∀ fd, s.table p fd = none) :
    s.clearTable p = s := by
  have hempty : s.table p = fun _ => none := funext h
  unfold Files.clearTable
  rw [← hempty, update_eq_self]

/-- `f->refcount = 0` -/
def Files.release (s : Files n V) (f : Fin 128) : Files n V :=
  s.setFile f { s.pool f with refcount := 0 }

/-- `f->refcount--` -/
def Files.drop (s : Files n V) (f : Fin 128) : Files n V :=
  s.setFile f { s.pool f with refcount := (s.pool f).refcount - 1 }

/-- `fd_get` -/
def fdGet (s : Files n V) (p : Fin n) (fd : ℤ) : Option (Fin 128) :=
  if h : 0 ≤ fd ∧ fd < 32 then s.table p ⟨fd.toNat, fd_lt h⟩ else none

/-- `fd_dup`: the new descriptor, `-EBADF` or `-EMFILE`. -/
def fdDup (s : Files n V) (p : Fin n) (fd : ℤ) : Files n V × ℤ :=
  match fdGet s p fd with
  | none => (s, -9)
  | some f =>
    match fdAlloc s p f with
    | (s, some fd) => (s, fd.val)
    | (s, none) => (s, -24)

/-- One turn of the loop of `fd_clone`. -/
def cloneStep (parent child : Fin n) (s : Files n V) (i : Fin 32) : Files n V :=
  match s.table parent i with
  | some f =>
    (s.setFd child i (some f)).setFile f { s.pool f with refcount := (s.pool f).refcount + 1 }
  | none => s

/-- `fd_clone` -/
def fdClone (s : Files n V) (parent child : Fin n) : Files n V :=
  (List.finRange 32).foldl (cloneStep parent child) s

/-- Close the open descriptors from `start` on. -/
def fdCloseFrom (start : ℕ) (s : Files n V) (p : Fin n) : Files n V :=
  (List.finRange 32).foldl
    (fun s fd => if start ≤ fd.val ∧ (s.table p fd).isSome then (fdClose s p fd.val).1 else s) s

/-- `fd_close_all` -/
def fdCloseAll (s : Files n V) (p : Fin n) : Files n V := fdCloseFrom 0 s p

/-- `pipe_create` from its first `file_alloc` on, with the descriptors of the two ends. -/
def pipeFiles (s : Files n V) (p : Fin n) (rdVp wrVp : V) :
    Files n V × Except ℤ (Fin 32 × Fin 32) :=
  match fileAlloc s rdVp 0 with
  | (s, none) =>
    match fileAlloc s wrVp 1 with
    | (s, none) => (s, .error (-12))
    | (s, some wf) => (s.release wf, .error (-12))
  | (s, some rf) =>
    match fileAlloc s wrVp 1 with
    | (s, none) => (s.release rf, .error (-12))
    | (s, some wf) =>
      match fdAlloc s p rf with
      | (s, none) => ((s.release rf).release wf, .error (-24))
      | (s, some rfd) =>
        match fdAlloc (s.drop rf) p wf with
        | (s, none) => ((fdClose s p rfd.val).1.release wf, .error (-24))
        | (s, some wfd) => (s.drop wf, .ok (rfd, wfd))

/-- `pipe_create`, given the vnodes for its two ends: `none` when there is no ring or no vnode
left. It returns 0, `-ENOMEM` or `-EMFILE`. -/
def pipeCreate (s : Files n V) (p : Fin n) (rd wr : Option V) : Files n V × ℤ :=
  match rd, wr with
  | some rdVp, some wrVp =>
    match pipeFiles s p rdVp wrVp with
    | (s, .error e) => (s, e)
    | (s, .ok _) => (s, 0)
  | _, _ => (s, -12)

theorem pipeCreate_eq (s : Files n V) (p : Fin n) (rdVp wrVp : V) :
    (pipeCreate s p (some rdVp) (some wrVp)).1 = (pipeFiles s p rdVp wrVp).1 := by
  unfold pipeCreate
  dsimp only
  rcases pipeFiles s p rdVp wrVp with ⟨s, e | fds⟩ <;> rfl

/-! ## Reference counts -/

variable {s s' : Files n V} {p q : Fin n} {f g : Fin 128} {vp : V} {fd : Fin 32}
  {child parent : Fin n}

/-- The references of a file less its descriptors. -/
def Files.excess (s : Files n V) : Fin 128 → ℤ :=
  Lib.excess (fun f => (s.pool f).refcount) fun x : Fin n × Fin 32 => s.table x.1 x.2

/-- The references of every file are its descriptors. -/
def Files.Balanced (s : Files n V) : Prop := s.excess = 0

theorem Files.excess_setFile (s : Files n V) (f : Fin 128) (file : File V) :
    (s.setFile f file).excess =
      update s.excess f (s.excess f + (file.refcount - (s.pool f).refcount)) := by
  have hcount : (fun g => ((s.setFile f file).pool g).refcount) =
      update (fun g => (s.pool g).refcount) f file.refcount := by
    ext g
    exact apply_update (fun _ (x : File V) => x.refcount) s.pool f file g
  unfold excess
  rw [hcount]
  exact excess_count f file.refcount

/-- A descriptor as a place of a table. -/
theorem Files.uncurry_setFd (s : Files n V) (p : Fin n) (fd : Fin 32) (o : Option (Fin 128)) :
    (fun x : Fin n × Fin 32 => (s.setFd p fd o).table x.1 x.2) =
      update (fun x : Fin n × Fin 32 => s.table x.1 x.2) (p, fd) o := by
  ext ⟨q, gd⟩ : 1
  rw [table_setFd]
  by_cases hx : (q, gd) = (p, fd)
  · rw [hx, update_self]
    exact if_pos ⟨rfl, rfl⟩
  · rw [update_of_ne hx, if_neg fun heq => hx (Prod.ext heq.1 heq.2)]

theorem Files.excess_fill (h : s.table p fd = none) (f : Fin 128) :
    (s.setFd p fd (some f)).excess = update s.excess f (s.excess f - 1) := by
  unfold excess
  rw [uncurry_setFd]
  exact Lib.excess_fill (a := (p, fd)) h

theorem Files.excess_clear (h : s.table p fd = some f) :
    (s.setFd p fd none).excess = update s.excess f (s.excess f + 1) := by
  unfold excess
  rw [uncurry_setFd]
  exact Lib.excess_clear (a := (p, fd)) h

/-- A descriptor and a reference come together. -/
theorem Files.excess_refer (h : s.table p fd = none) (f : Fin 128) :
    ((s.setFd p fd (some f)).setFile f
      { s.pool f with refcount := (s.pool f).refcount + 1 }).excess = s.excess := by
  have hpool : (s.setFd p fd (some f)).pool f = s.pool f := rfl
  have hsum : s.excess f - 1 + ((s.pool f).refcount + 1 - (s.pool f).refcount) = s.excess f := by
    omega
  rw [excess_setFile, excess_fill h, hpool, update_self, update_idem,
    hsum, update_eq_self]

theorem fdAlloc_cases (s : Files n V) (p : Fin n) (f : Fin 128) :
    (fdAlloc s p f = (s, none) ∧ ∀ fd, s.table p fd ≠ none) ∨ ∃ fd, s.table p fd = none ∧
      fdAlloc s p f = ((s.setFd p fd (some f)).setFile f
        { s.pool f with refcount := (s.pool f).refcount + 1 }, some fd) := by
  unfold fdAlloc
  cases hfind : firstFin fun fd => (s.table p fd).isNone with
  | none => exact .inl ⟨rfl, fun fd hfd => by simpa [hfd] using firstFin_eq_none.mp hfind fd⟩
  | some fd => exact .inr ⟨fd, by simpa using firstFin_spec hfind, rfl⟩

theorem fileAlloc_cases (s : Files n V) (vp : V) (flags : ℕ) :
    (fileAlloc s vp flags = (s, none) ∧ ∀ f, (s.pool f).refcount ≠ 0) ∨
      ∃ f, (s.pool f).refcount = 0 ∧
        fileAlloc s vp flags = (s.setFile f ⟨some vp, 0, flags, 1⟩, some f) := by
  unfold fileAlloc
  cases hfind : firstFin fun f => decide ((s.pool f).refcount = 0) with
  | none => exact .inl ⟨rfl, fun f => by simpa using firstFin_eq_none.mp hfind f⟩
  | some f => exact .inr ⟨f, by simpa using firstFin_spec hfind, rfl⟩

/-- A descriptor is empty or refers to a file, which `fd_close` drops. -/
theorem fdGet_cases (s : Files n V) (p : Fin n) (fd : ℤ) :
    (fdGet s p fd = none ∧ (fdClose s p fd).1 = s ∧
        ∀ gd : Fin 32, (gd.val : ℤ) = fd → s.table p gd = none) ∨
      ∃ (gd : Fin 32) (f : Fin 128), (gd.val : ℤ) = fd ∧ s.table p gd = some f ∧
        fdGet s p fd = some f ∧ (fdClose s p fd).1 = fileFree (s.setFd p gd none) f := by
  unfold fdClose fdGet
  split_ifs with hfd
  · dsimp only
    cases hf : s.table p ⟨fd.toNat, by omega⟩ with
    | none =>
      refine .inl ⟨rfl, rfl, fun gd hgd => ?_⟩
      subst hgd
      exact hf
    | some f => exact .inr ⟨_, f, Int.toNat_of_nonneg hfd.1, hf, rfl, rfl⟩
  · exact .inl ⟨rfl, rfl, fun gd hgd => absurd ⟨by omega, by omega⟩ hfd⟩

/-- `fd_close` takes the reference with the descriptor. -/
theorem excess_fdClose (h : ∀ f, 0 ≤ s.excess f) (p : Fin n) (fd : ℤ) :
    (fdClose s p fd).1.excess = s.excess := by
  rcases fdGet_cases s p fd with ⟨-, hclose, -⟩ | ⟨gd, f, -, hf, -, hclose⟩
  · rw [hclose]
  · have hpos : 1 ≤ (s.pool f).refcount :=
      count_pos (fun f => (s.pool f).refcount) (a := (p, gd)) hf (h f)
    have hpool : (s.setFd p gd none).pool f = s.pool f := rfl
    rw [hclose, fileFree, hpool]
    split_ifs with hlast
    · rw [Files.excess_setFile, Files.excess_clear hf, hpool]
      have hone : (s.pool f).refcount = 1 := by omega
      simp [hone]
    · rw [Files.excess_setFile, Files.excess_clear hf, hpool]
      simp

/-- The same descriptors, and the same files as far as they are open. -/
structure Files.SameOpen (s s' : Files n V) : Prop where
  table : s'.table = s.table
  pool : ∀ f, s'.pool f = s.pool f ∨ (s.pool f).refcount = 0 ∧ (s'.pool f).refcount = 0

theorem Files.SameOpen.refl (s : Files n V) : s.SameOpen s := ⟨rfl, fun _ => .inl rfl⟩

/-- Only two files that were free have changed, and they are free again. -/
theorem Files.SameOpen.of_pair (hf : (s.pool f).refcount = 0) (hg : (s.pool g).refcount = 0)
    (htable : s'.table = s.table) (hother : ∀ x, x ≠ f → x ≠ g → s'.pool x = s.pool x)
    (hf' : (s'.pool f).refcount = 0) (hg' : (s'.pool g).refcount = 0) : s.SameOpen s' := by
  refine ⟨htable, fun x => ?_⟩
  by_cases hxf : x = f
  · exact .inr (hxf ▸ ⟨hf, hf'⟩)
  by_cases hxg : x = g
  · exact .inr (hxg ▸ ⟨hg, hg'⟩)
  · exact .inl (hother x hxf hxg)

/-- A file that was free is given back. -/
theorem Files.SameOpen.release (hf : (s.pool f).refcount = 0) (file : File V) :
    s.SameOpen ((s.setFile f file).release f) := by
  refine of_pair hf hf rfl (fun x hx _ => ?_) ?_ ?_ <;>
    simp [Files.release, Files.setFile, *]

theorem Files.SameOpen.excess (h : s.SameOpen s') : s'.excess = s.excess := by
  have hcount : (fun f => (s'.pool f).refcount) = fun f => (s.pool f).refcount := by
    ext f
    rcases h.pool f with hsame | ⟨hold, hnew⟩
    · rw [hsame]
    · rw [hold, hnew]
  unfold Files.excess
  rw [hcount, h.table]

/-- A file that was free is put under an empty descriptor. -/
def Files.opened (s : Files n V) (p : Fin n) (fd : Fin 32) (f : Fin 128) (file : File V) :
    Files n V := (s.setFile f file).setFd p fd (some f)

theorem Files.balanced_empty (n : ℕ) (V : Type*) : (Files.empty n V).Balanced := by
  ext f
  simp [excess, Lib.excess, empty, places]

theorem Files.Balanced.nonneg (h : s.Balanced) (f : Fin 128) : 0 ≤ s.excess f := by
  rw [h]
  rfl

/-- A descriptor holds a reference. -/
theorem Files.Balanced.refcount_pos (h : s.Balanced) (hf : s.table q fd = some f) :
    1 ≤ (s.pool f).refcount :=
  count_pos (fun f => (s.pool f).refcount) (a := (q, fd)) hf (h.nonneg f)

theorem Files.Balanced.opened (h : s.Balanced) {file : File V} (hfd : s.table p fd = none)
    (hf : (s.pool f).refcount = 0) (hone : file.refcount = 1) :
    (s.opened p fd f file).Balanced := by
  unfold Files.opened Files.Balanced
  rw [Files.excess_fill (s := s.setFile f file) hfd, Files.excess_setFile, h, hf, hone]
  simp

theorem Files.refers_iff {w : V} :
    s.Refers w ↔ ∃ q gd g, s.table q gd = some g ∧ (s.pool g).vnode = some w := by
  simp [Files.Refers, Option.bind_eq_some_iff]

theorem Files.SameOpen.refers (h : s.SameOpen s') (hs : s.Balanced) {w : V} (hw : s'.Refers w) :
    s.Refers w := by
  obtain ⟨q, gd, g, hg, hvnode⟩ := Files.refers_iff.mp hw
  rw [h.table] at hg
  have hpos := hs.refcount_pos hg
  refine Files.refers_iff.mpr ⟨q, gd, g, hg, ?_⟩
  rcases h.pool g with hsame | ⟨hfree, -⟩
  · rw [← hsame, hvnode]
  · omega

/-- No descriptor had the file that is opened. -/
theorem Files.Balanced.refers_opened (h : s.Balanced) (hf : (s.pool f).refcount = 0)
    {file : File V} {w : V} (hw : (s.opened p fd f file).Refers w) :
    s.Refers w ∨ file.vnode = some w := by
  obtain ⟨q, gd, g, hg, hvnode⟩ := Files.refers_iff.mp hw
  unfold Files.opened at hg hvnode
  rw [Files.table_setFd] at hg
  split_ifs at hg
  · cases hg
    exact .inr (by simpa [Files.setFd, Files.setFile] using hvnode)
  · have hpos := h.refcount_pos hg
    have hne : g ≠ f := by
      rintro rfl
      omega
    refine .inl (Files.refers_iff.mpr ⟨q, gd, g, hg, ?_⟩)
    simpa [Files.setFd, Files.setFile, hne] using hvnode

/-- `SYS_OPEN` opens a file or changes none that is open. -/
theorem sysOpen_cases (s : Files n V) (p : Fin n) (vp : V) (flags : ℕ) :
    s.SameOpen (sysOpen s p vp flags).1 ∨ ∃ fd f, s.table p fd = none ∧
      (s.pool f).refcount = 0 ∧ (sysOpen s p vp flags).1 = s.opened p fd f ⟨some vp, 0, flags, 1⟩ := by
  unfold sysOpen
  rcases fileAlloc_cases s vp flags with ⟨hnone, -⟩ | ⟨f, hf, hsome⟩
  · rw [hnone]
    exact .inl (Files.SameOpen.refl s)
  rw [hsome]
  dsimp only
  rcases fdAlloc_cases (s.setFile f ⟨some vp, 0, flags, 1⟩) p f with ⟨hfull, -⟩ | ⟨fd, hfd, hopen⟩
  · rw [hfull]
    exact .inl (Files.SameOpen.release hf _)
  · rw [hopen]
    exact .inr ⟨fd, f, hfd, hf, setFile_refcount _ p fd f⟩

section

variable (h : s.Balanced)
include h

theorem Files.Balanced.sysOpen (p : Fin n) (vp : V) (flags : ℕ) :
    (Proc.sysOpen s p vp flags).1.Balanced := by
  rcases sysOpen_cases s p vp flags with hsame | ⟨fd, f, hfd, hf, heq⟩
  · exact hsame.excess.trans h
  · rw [heq]
    exact h.opened hfd hf rfl

/-- `SYS_OPEN` makes at most the new vnode referred to. -/
theorem Files.Balanced.refers_sysOpen {flags : ℕ} {w : V}
    (hw : (Proc.sysOpen s p vp flags).1.Refers w) : s.Refers w ∨ w = vp := by
  rcases sysOpen_cases s p vp flags with hsame | ⟨fd, f, -, hf, heq⟩
  · exact .inl (hsame.refers h hw)
  · rw [heq] at hw
    exact (h.refers_opened hf hw).imp_right fun hvp => (Option.some.inj hvp).symm

theorem Files.Balanced.fdClose (p : Fin n) (fd : ℤ) : (Proc.fdClose s p fd).1.Balanced :=
  (excess_fdClose h.nonneg p fd).trans h

theorem Files.Balanced.fdDup (p : Fin n) (fd : ℤ) : (Proc.fdDup s p fd).1.Balanced := by
  unfold Proc.fdDup
  cases fdGet s p fd with
  | none => exact h
  | some f =>
    dsimp only
    rcases fdAlloc_cases s p f with ⟨hfull, -⟩ | ⟨fd, hfd, hdup⟩
    · rw [hfull]
      exact h
    · rw [hdup]
      exact (Files.excess_refer hfd f).trans h

/-- A console descriptor of a new process. -/
theorem Files.Balanced.stdio (hfd : s.table p fd = none) (tty : V) (flags : ℕ) :
    (Proc.stdio s p fd tty flags).Balanced ∧
      ∀ w, (Proc.stdio s p fd tty flags).Refers w → s.Refers w ∨ w = tty := by
  unfold Proc.stdio
  rcases fileAlloc_cases s tty flags with ⟨hnone, -⟩ | ⟨f, hf, hsome⟩
  · rw [hnone]
    exact ⟨h, fun w => .inl⟩
  · rw [hsome]
    refine ⟨h.opened hfd hf rfl, fun w hw => (h.refers_opened hf hw).imp_right fun hvp => ?_⟩
    exact (Option.some.inj hvp).symm

end

theorem table_fileFree (s : Files n V) (f : Fin 128) : (fileFree s f).table = s.table := by
  unfold fileFree
  dsimp only
  split_ifs
  · rfl
  · rfl

/-- `fd_close` empties the descriptor. -/
theorem table_fdClose (s : Files n V) (p q : Fin n) (fd : ℤ) (gd : Fin 32) :
    (fdClose s p fd).1.table q gd = if q = p ∧ (gd.val : ℤ) = fd then none else s.table q gd := by
  rcases fdGet_cases s p fd with ⟨-, hclose, hnone⟩ | ⟨gd', f, rfl, -, -, hclose⟩
  · rw [hclose]
    split_ifs with hslot
    · rw [hslot.1, hnone gd hslot.2]
    · rfl
  · simp only [hclose, table_fileFree, Files.table_setFd, Int.ofNat_inj, Fin.val_inj]

/-- `SYS_CLOSE` makes no vnode referred to. -/
theorem refers_fdClose {fd : ℤ} {w : V} (hw : (fdClose s p fd).1.Refers w) : s.Refers w := by
  rcases fdGet_cases s p fd with ⟨-, hclose, -⟩ | ⟨gd, f, -, -, -, hclose⟩
  · rwa [hclose] at hw
  obtain ⟨q, kd, g, hg, hvnode⟩ := Files.refers_iff.mp hw
  rw [table_fdClose] at hg
  split_ifs at hg
  refine Files.refers_iff.mpr ⟨q, kd, g, hg, ?_⟩
  rw [hclose, fileFree] at hvnode
  by_cases hgf : g = f
  · subst hgf
    split_ifs at hvnode
    · simp [Files.setFile] at hvnode
    · simpa [Files.setFile, Files.setFd] using hvnode
  · split_ifs at hvnode <;> simpa [Files.setFile, Files.setFd, hgf] using hvnode

/-- The last descriptor of a file is closed. -/
theorem fdClose_last (h : s.table p fd = some f) (hlast : (s.pool f).refcount = 1) :
    (fdClose s p fd.val).1 = (s.setFd p fd none).setFile f ⟨none, 0, 0, 0⟩ := by
  have := fd.isLt
  simp [fdClose, h, show ((fd : ℕ) : ℤ) < 32 by omega, fileFree, Files.setFd, hlast]

/-- The process has two empty descriptors, and two files are free. -/
def Files.FreePair (s : Files n V) (p : Fin n) : Prop :=
  (∃ a b, a ≠ b ∧ s.table p a = none ∧ s.table p b = none) ∧
    ∃ f g, f ≠ g ∧ (s.pool f).refcount = 0 ∧ (s.pool g).refcount = 0

theorem exists_ne_of_pair {α : Type*} {P : α → Prop} (h : ∃ a b, a ≠ b ∧ P a ∧ P b) (x : α) :
    ∃ a, a ≠ x ∧ P a := by
  obtain ⟨a, b, hab, ha, hb⟩ := h
  by_cases hax : a = x
  · exact ⟨b, fun hbx => hab (hax.trans hbx.symm), hb⟩
  · exact ⟨a, hax, ha⟩

/-- `pipe_create` opens two files, or changes none that is open. -/
theorem pipeFiles_cases (s : Files n V) (p : Fin n) (rdVp wrVp : V) :
    (∃ e, (pipeFiles s p rdVp wrVp).2 = .error e ∧ ¬ s.FreePair p ∧
      s.SameOpen (pipeFiles s p rdVp wrVp).1) ∨
    ∃ rf wf rfd wfd, rf ≠ wf ∧ (s.pool rf).refcount = 0 ∧ (s.pool wf).refcount = 0 ∧ rfd ≠ wfd ∧
      s.table p rfd = none ∧ s.table p wfd = none ∧ pipeFiles s p rdVp wrVp =
        ((s.opened p rfd rf ⟨some rdVp, 0, 0, 1⟩).opened p wfd wf ⟨some wrVp, 0, 1, 1⟩,
          .ok (rfd, wfd)) := by
  unfold pipeFiles
  rcases fileAlloc_cases s rdVp 0 with ⟨hnone, hused⟩ | ⟨rf, hrf, hsome⟩
  · rw [hnone]
    dsimp only
    rcases fileAlloc_cases s wrVp 1 with ⟨hnone', -⟩ | ⟨wf, hwf, -⟩
    · rw [hnone']
      refine .inl ⟨_, rfl, ?_, Files.SameOpen.refl s⟩
      rintro ⟨-, f, -, -, hf, -⟩
      exact hused f hf
    · exact absurd hwf (hused wf)
  rw [hsome]
  dsimp only
  rcases fileAlloc_cases (s.setFile rf ⟨some rdVp, 0, 0, 1⟩) wrVp 1 with
    ⟨hnone, hused⟩ | ⟨wf, hwf, hsome'⟩
  · rw [hnone]
    refine .inl ⟨_, rfl, ?_, Files.SameOpen.release hrf _⟩
    rintro ⟨-, hpair⟩
    obtain ⟨g, hg, hfree⟩ := exists_ne_of_pair hpair rf
    exact hused g (by simpa [Files.setFile, hg] using hfree)
  have hne : rf ≠ wf := by
    rintro rfl
    simp [Files.setFile] at hwf
  replace hwf : (s.pool wf).refcount = 0 := by simpa [Files.setFile, hne.symm] using hwf
  rw [hsome']
  dsimp only
  rcases fdAlloc_cases ((s.setFile rf ⟨some rdVp, 0, 0, 1⟩).setFile wf ⟨some wrVp, 0, 1, 1⟩) p rf with
    ⟨hfull, hfds⟩ | ⟨rfd, hrfd, hopen⟩
  · rw [hfull]
    refine .inl ⟨_, rfl, ?_, Files.SameOpen.of_pair hrf hwf rfl (fun x hr hw => ?_) ?_ ?_⟩
    · rintro ⟨⟨a, -, -, ha, -⟩, -⟩
      exact hfds a ha
    all_goals simp [Files.release, Files.setFile, *]
  rw [hopen]
  dsimp only
  rw [Files.drop, setFile_refcount]
  rcases fdAlloc_cases (((s.setFile rf ⟨some rdVp, 0, 0, 1⟩).setFile wf ⟨some wrVp, 0, 1, 1⟩).setFd
    p rfd (some rf)) p wf with ⟨hfull, hfds⟩ | ⟨wfd, hwfd, hopen'⟩
  · rw [hfull]
    dsimp only
    rw [fdClose_last (f := rf) (by simp [Files.setFd]) (by simp [Files.setFd, Files.setFile, hne])]
    refine .inl ⟨_, rfl, ?_, Files.SameOpen.of_pair hrf hwf ?_ (fun x hr hw => ?_) ?_ ?_⟩
    · rintro ⟨hpair, -⟩
      obtain ⟨a, ha, hnone⟩ := exists_ne_of_pair hpair rfd
      exact hfds a (by simpa [Files.setFd, Files.setFile, ha] using hnone)
    · have hself : update (s.table p) rfd none = s.table p :=
        update_eq_self_iff.mpr hrfd.symm
      simp [Files.release, Files.setFd, Files.setFile, hself]
    all_goals simp [Files.release, Files.setFile, Files.setFd, *]
  · have hdiff : rfd ≠ wfd := by
      rintro rfl
      simp [Files.setFd] at hwfd
    rw [hopen']
    dsimp only
    rw [Files.drop, setFile_refcount]
    refine .inr ⟨rf, wf, rfd, wfd, hne, hrf, hwf, hdiff, hrfd, ?_, rfl⟩
    simpa [Files.setFd, Files.setFile, hdiff.symm] using hwfd

theorem Files.Balanced.pipeFiles (h : s.Balanced) (p : Fin n) (rdVp wrVp : V) :
    (Proc.pipeFiles s p rdVp wrVp).1.Balanced := by
  rcases pipeFiles_cases s p rdVp wrVp with
    ⟨-, -, -, hsame⟩ | ⟨rf, wf, rfd, wfd, hne, hrf, hwf, hdiff, hrfd, hwfd, heq⟩
  · exact hsame.excess.trans h
  · rw [heq]
    refine (h.opened hrfd hrf rfl).opened ?_ ?_ rfl
    · simpa [Files.opened, Files.setFd, Files.setFile, hdiff.symm] using hwfd
    · simpa [Files.opened, Files.setFd, Files.setFile, hne.symm] using hwf

theorem Files.Balanced.pipeCreate (h : s.Balanced) (p : Fin n) (rd wr : Option V) :
    (Proc.pipeCreate s p rd wr).1.Balanced := by
  rcases rd with _ | rdVp
  · exact h
  rcases wr with _ | wrVp
  · exact h
  rw [pipeCreate_eq]
  exact h.pipeFiles p rdVp wrVp

/-- The descriptors that a turn of the loop of `fd_clone` does not come to. -/
theorem table_cloneStep (parent child : Fin n) (s : Files n V) (i : Fin 32) {q : Fin n}
    {gd : Fin 32} (hne : ¬ (q = child ∧ gd = i)) :
    (cloneStep parent child s i).table q gd = s.table q gd := by
  unfold cloneStep
  cases s.table parent i with
  | none => rfl
  | some f =>
    change (s.setFd child i (some f)).table q gd = s.table q gd
    rw [Files.table_setFd, if_neg hne]

/-- A clone into a process without descriptors. -/
theorem Files.Balanced.fdClone (h : s.Balanced) (parent : Fin n)
    (hchild : ∀ fd, s.table child fd = none) : (Proc.fdClone s parent child).Balanced := by
  -- The descriptors that are still to come are empty.
  have hloop : ∀ (l : List (Fin 32)) (s : Files n V), l.Nodup → s.Balanced →
      (∀ fd ∈ l, s.table child fd = none) → (l.foldl (cloneStep parent child) s).Balanced := by
    intro l
    induction l with
    | nil => exact fun s _ hs _ => hs
    | cons i l ih =>
      intro s hl hs hempty
      obtain ⟨hi, hl⟩ := List.nodup_cons.mp hl
      rw [List.foldl_cons]
      refine ih _ hl ?_ fun fd hfd => ?_
      · unfold cloneStep
        cases s.table parent i with
        | none => exact hs
        | some f => exact (Files.excess_refer (hempty i List.mem_cons_self) f).trans hs
      · rw [table_cloneStep]
        · exact hempty fd (.tail _ hfd)
        · rintro ⟨-, rfl⟩
          exact hi hfd
  exact hloop _ s (List.nodup_finRange 32) h fun fd _ => hchild fd

theorem table_fdClone (hq : q ≠ child) :
    (fdClone s parent child).table q = s.table q := by
  refine List.foldlRecOn (motive := fun t : Files n V => t.table q = s.table q) _ _ rfl ?_
  intro t ht i _
  ext gd : 1
  rw [table_cloneStep parent child t i fun heq => hq heq.1, ht]

/-- A clone of nothing. -/
theorem fdClone_empty (hparent : ∀ fd, s.table parent fd = none) (child : Fin n) :
    fdClone s parent child = s := by
  refine List.foldlRecOn (motive := fun t : Files n V => t = s) _ _ rfl ?_
  rintro t rfl i _
  unfold cloneStep
  rw [hparent i]

theorem Files.Balanced.fdCloseFrom (h : s.Balanced) (start : ℕ) (p : Fin n) :
    (Proc.fdCloseFrom start s p).Balanced := by
  refine List.foldlRecOn (motive := Files.Balanced) _ _ h fun t ht fd _ => ?_
  split_ifs
  · exact ht.fdClose p fd.val
  · exact ht

/-- The loops that close descriptors empty those from `start` on. -/
theorem table_fdCloseFrom (start : ℕ) (s : Files n V) (p q : Fin n) (gd : Fin 32) :
    (fdCloseFrom start s p).table q gd =
      if q = p ∧ start ≤ gd.val then none else s.table q gd := by
  have hstep : ∀ (s : Files n V) (fd : Fin 32),
      (if start ≤ fd.val ∧ (s.table p fd).isSome then (fdClose s p fd.val).1 else s).table q gd =
        if q = p ∧ start ≤ gd.val ∧ gd = fd then none else s.table q gd := by
    intro s fd
    split_ifs with hopen hnow hnow
    · rw [table_fdClose, if_pos ⟨hnow.1, by rw [hnow.2.2]⟩]
    · rw [table_fdClose, if_neg]
      rintro ⟨hq, hfd⟩
      have hgd : gd = fd := Fin.ext (by omega)
      exact hnow ⟨hq, hgd ▸ hopen.1, hgd⟩
    · obtain ⟨rfl, hstart, rfl⟩ := hnow
      simpa [hstart] using hopen
    · rfl
  have hloop : ∀ (l : List (Fin 32)) (s : Files n V),
      (l.foldl (fun s fd => if start ≤ fd.val ∧ (s.table p fd).isSome then
        (fdClose s p fd.val).1 else s) s).table q gd =
      if q = p ∧ start ≤ gd.val ∧ gd ∈ l then none else s.table q gd := by
    intro l
    induction l with
    | nil => simp
    | cons fd l ih =>
      intro s
      rw [List.foldl_cons, ih, hstep]
      simp only [List.mem_cons]
      split_ifs <;> tauto
  have hall := hloop (List.finRange 32) s
  simpa [fdCloseFrom] using hall

theorem table_opened_of_ne (hq : q ≠ p) (fd : Fin 32) (file : File V) :
    (s.opened p fd f file).table q = s.table q := update_of_ne hq _ _

/-- `SYS_OPEN` leaves the other processes alone. -/
theorem table_sysOpen_of_ne (hq : q ≠ p) (vp : V) (flags : ℕ) :
    (sysOpen s p vp flags).1.table q = s.table q := by
  rcases sysOpen_cases s p vp flags with hsame | ⟨fd, f, -, -, heq⟩
  · rw [hsame.table]
  · rw [heq, table_opened_of_ne hq]

theorem table_fdDup_of_ne (hq : q ≠ p) (fd : ℤ) : (fdDup s p fd).1.table q = s.table q := by
  unfold fdDup
  cases fdGet s p fd with
  | none => rfl
  | some f =>
    dsimp only
    rcases fdAlloc_cases s p f with ⟨hfull, -⟩ | ⟨fd, -, hdup⟩
    · rw [hfull]
    · rw [hdup]
      exact update_of_ne hq _ _

theorem table_pipeCreate_of_ne (hq : q ≠ p) (rd wr : Option V) :
    (pipeCreate s p rd wr).1.table q = s.table q := by
  rcases rd with _ | rdVp
  · rfl
  rcases wr with _ | wrVp
  · rfl
  rw [pipeCreate_eq]
  rcases pipeFiles_cases s p rdVp wrVp with ⟨-, -, -, hsame⟩ | ⟨_, _, _, _, -, -, -, -, -, -, heq⟩
  · rw [hsame.table]
  · rw [heq, table_opened_of_ne hq, table_opened_of_ne hq]

/-- A console descriptor of a new process is the only one that changes. -/
theorem table_stdio (s : Files n V) (p q : Fin n) (fd gd : Fin 32) (tty : V) (flags : ℕ)
    (hne : ¬ (q = p ∧ gd = fd)) : (stdio s p fd tty flags).table q gd = s.table q gd := by
  unfold stdio
  rcases fileAlloc_cases s tty flags with ⟨hnone, -⟩ | ⟨f, -, hsome⟩
  · rw [hnone]
  · rw [hsome]
    rw [Files.table_setFd, if_neg hne]
    rfl

/-- A new process gets its console descriptors. -/
theorem Files.Balanced.fdInitStdio (h : s.Balanced) (hp : ∀ fd, s.table p fd = none) (tty : V) :
    (Proc.fdInitStdio s p tty).Balanced ∧
      ∀ w, (Proc.fdInitStdio s p tty).Refers w → s.Refers w ∨ w = tty := by
  obtain ⟨hfirst, hw₀⟩ := h.stdio (hp 0) tty 0
  have hone : (Proc.stdio s p 0 tty 0).table p 1 = none := by
    rw [table_stdio _ _ _ _ _ _ _ (by simp), hp]
  obtain ⟨hsecond, hw₁⟩ := hfirst.stdio hone tty 1
  have htwo : (Proc.stdio (Proc.stdio s p 0 tty 0) p 1 tty 1).table p 2 = none := by
    rw [table_stdio _ _ _ _ _ _ _ (by simp), table_stdio _ _ _ _ _ _ _ (by simp), hp]
  obtain ⟨hthird, hw₂⟩ := hsecond.stdio htwo tty 1
  refine ⟨hthird, fun w hw => ?_⟩
  rcases hw₂ w hw with hw | rfl
  · exact (hw₁ w hw).elim (hw₀ w) .inr
  · exact .inr rfl

theorem table_fdInitStdio_of_ne (hq : q ≠ p) (tty : V) :
    (fdInitStdio s p tty).table q = s.table q := by
  ext gd : 1
  have hne : ∀ fd, ¬ (q = p ∧ gd = fd) := fun fd heq => hq heq.1
  unfold fdInitStdio
  rw [table_stdio _ _ _ _ _ _ _ (hne 2), table_stdio _ _ _ _ _ _ _ (hne 1),
    table_stdio _ _ _ _ _ _ _ (hne 0)]

/-- After boot only the console is open. -/
theorem Files.balanced_boot (n : ℕ) (tty : V) :
    (Files.boot n tty).Balanced ∧ ∀ w, (Files.boot n tty).Refers w → w = tty := by
  -- The processes that are still to come have no descriptors.
  have hloop : ∀ (ps : List (Fin n)) (s : Files n V), ps.Nodup →
      (∀ p ∈ ps, ∀ fd, s.table p fd = none) → s.Balanced → (∀ w, s.Refers w → w = tty) →
      (ps.foldl (fun s p => fdInitStdio s p tty) s).Balanced ∧
        ∀ w, (ps.foldl (fun s p => fdInitStdio s p tty) s).Refers w → w = tty := by
    intro ps
    induction ps with
    | nil => exact fun s _ _ hs hw => ⟨hs, hw⟩
    | cons p ps ih =>
      intro s hnodup hempty hs hw
      obtain ⟨hp, hps⟩ := List.nodup_cons.mp hnodup
      obtain ⟨hs', hw'⟩ := hs.fdInitStdio (hempty p List.mem_cons_self) tty
      refine ih _ hps (fun q hq fd => ?_) hs' fun w hrefers => (hw' w hrefers).elim (hw w) id
      rw [table_fdInitStdio_of_ne (ne_of_mem_of_not_mem hq hp)]
      exact hempty q (List.mem_cons_of_mem p hq) fd
  refine hloop _ _ (List.nodup_finRange n) (fun _ _ _ => rfl) (balanced_empty n V) ?_
  rintro w ⟨p, fd, hw⟩
  cases hw

end Tomahawk.Proc
