import Mathlib.Algebra.GroupWithZero.Nat
import Tomahawk.Lib.Table
import Mathlib.Data.Fintype.Basic

/-!
# Open files and descriptors

The static pool of `struct file` and the descriptor tables of the processes, as in `fd.c`.
What a file refers to is left open: a vnode is a value of any type.
-/

namespace Tomahawk.Proc

open Function Tomahawk.Lib

/-- `struct file` -/
structure File (V : Type*) where
  vnode : Option V
  offset : ℕ
  flags : ℕ
  refcount : ℤ

/-- `file_pool` and the field `fd_table` of each of `n` processes. -/
structure Files (n : ℕ) (V : Type*) where
  pool : Fin 128 → File V
  table : Fin n → Fin 32 → Option (Fin 128)

variable {n : ℕ} {V : Type*}

/-- Replace a `struct file`. -/
def Files.setFile (s : Files n V) (f : Fin 128) (file : File V) : Files n V :=
  { s with pool := update s.pool f file }

/-- Replace a descriptor. -/
def Files.setFd (s : Files n V) (p : Fin n) (fd : Fin 32) (f : Option (Fin 128)) : Files n V :=
  { s with table := update s.table p (update (s.table p) fd f) }

/-- A table has 32 descriptors. -/
scoped instance neZeroFds : NeZero 32 := ⟨by decide⟩

theorem fd_lt {fd : ℤ} (h : 0 ≤ fd ∧ fd < 32) : fd.toNat < 32 := by omega

/-- `file_alloc`: the first file of the pool without references. -/
def fileAlloc (s : Files n V) (vp : V) (flags : ℕ) : Files n V × Option (Fin 128) :=
  match firstFin fun f => decide ((s.pool f).refcount = 0) with
  | some f => (s.setFile f ⟨some vp, 0, flags, 1⟩, some f)
  | none => (s, none)

/-- `file_free`. The vnodes modelled here have no `vop_close`. -/
def fileFree (s : Files n V) (f : Fin 128) : Files n V :=
  let file := s.pool f
  if file.refcount - 1 ≤ 0 then s.setFile f ⟨none, 0, 0, 0⟩
  else s.setFile f { file with refcount := file.refcount - 1 }

/-- `fd_alloc`: the first empty descriptor of the process. -/
def fdAlloc (s : Files n V) (p : Fin n) (f : Fin 128) : Files n V × Option (Fin 32) :=
  match firstFin fun fd => (s.table p fd).isNone with
  | some fd =>
    ((s.setFd p fd (some f)).setFile f { s.pool f with refcount := (s.pool f).refcount + 1 },
      some fd)
  | none => (s, none)

/-- `fd_close`: 0 or `-EBADF`. -/
def fdClose (s : Files n V) (p : Fin n) (fd : ℤ) : Files n V × ℤ :=
  if h : 0 ≤ fd ∧ fd < 32 then
    let i : Fin 32 := ⟨fd.toNat, fd_lt h⟩
    match s.table p i with
    | none => (s, -9)
    | some f => (fileFree (s.setFd p i none) f, 0)
  else (s, -9)

/-- `SYS_OPEN` once the path has led to a vnode: the descriptor, `-ENOMEM` or `-EMFILE`. -/
def sysOpen (s : Files n V) (p : Fin n) (vp : V) (flags : ℕ) : Files n V × ℤ :=
  match fileAlloc s vp flags with
  | (s, none) => (s, -12)
  | (s, some f) =>
    match fdAlloc s p f with
    | (s, none) => (s.setFile f { s.pool f with refcount := 0 }, -24)
    | (s, some fd) =>
      (s.setFile f { s.pool f with refcount := (s.pool f).refcount - 1 }, fd.val)

/-- One of the three descriptors of `fd_init_stdio`. -/
def stdio (s : Files n V) (p : Fin n) (fd : Fin 32) (tty : V) (flags : ℕ) : Files n V :=
  match fileAlloc s tty flags with
  | (s, some f) => s.setFd p fd (some f)
  | (s, none) => s

/-- `fd_init_stdio`: descriptors 0, 1 and 2 on the console. -/
def fdInitStdio (s : Files n V) (p : Fin n) (tty : V) : Files n V :=
  let s := stdio s p 0 tty 0
  let s := stdio s p 1 tty 1
  stdio s p 2 tty 1

/-- The pool and the tables before the first process. -/
def Files.empty (n : ℕ) (V : Type*) : Files n V where
  pool := fun _ => ⟨none, 0, 0, 0⟩
  table := fun _ _ => none

/-- The pool and the tables when every process has its three descriptors. -/
def Files.boot (n : ℕ) (tty : V) : Files n V :=
  (List.finRange n).foldl (fun s p => fdInitStdio s p tty) (Files.empty n V)

/-- A descriptor of some process refers to the vnode. -/
def Files.Refers (s : Files n V) (vp : V) : Prop :=
  ∃ p fd, ((s.table p fd).bind fun f => (s.pool f).vnode) = some vp

instance [DecidableEq V] (s : Files n V) (vp : V) : Decidable (s.Refers vp) := by
  unfold Files.Refers
  infer_instance

theorem Files.table_setFd (s : Files n V) (p q : Fin n) (fd gd : Fin 32) (o : Option (Fin 128)) :
    (s.setFd p fd o).table q gd = if q = p ∧ gd = fd then o else s.table q gd := by
  simp only [Files.setFd]
  by_cases hq : q = p
  · subst hq
    by_cases hfd : gd = fd
    · simp [hfd]
    · simp [hfd]
  · simp [hq]

/-- The three changes of the reference count in `SYS_OPEN` leave one reference. -/
theorem setFile_refcount (s : Files n V) (p : Fin n) (fd : Fin 32) (f : Fin 128) :
    let t := (s.setFd p fd (some f)).setFile f { s.pool f with refcount := (s.pool f).refcount + 1 }
    t.setFile f { t.pool f with refcount := (t.pool f).refcount - 1 } = s.setFd p fd (some f) := by
  simp [Files.setFile, Files.setFd]

end Tomahawk.Proc
