import Tomahawk.Lib.Bytes
import Tomahawk.Memory.Mapping
import Tomahawk.Proc.Signals

/-!
# A new image for a process

`exec_process` gives the process a new address space before it looks at the file that it has read,
so an error that it finds later leaves the process without its old one.
-/

namespace Tomahawk.Proc

open Tomahawk.Lib Tomahawk.Memory

variable {n : ℕ} {P V : Type*}

/-- `mm_struct`, with the start, the end and the flags of its areas. -/
structure MmStruct where
  pml4Phys : ℕ
  mmap : List (ℕ × ℕ × ℕ)

/-- What `exec_process` works on: the machine, the length of the used part of `mm_pool`, and the
address space, the context of the main thread, the files and the signals of the process. -/
structure ExecState (n : ℕ) (V : Type*) where
  machine : Machine
  mmPoolOff : ℕ
  mm : Option MmStruct
  context : Option CpuContext
  files : Files n V
  signals : SignalStruct

/-- What `exec_process` is given: the current process, the path, and the file system. A read gives
its result and what is in memory from `exec_elf_buf` on. -/
structure ExecCall (n : ℕ) (P V : Type*) where
  proc : Option (Fin n)
  path : Option P
  resolveExecPath : P → Option V
  vopGetsize : V → Option ℤ
  vfsReadAt : V → ℕ → ℤ × Bytes

/-- `mm_kalloc` of a multiple of 8 bytes. -/
def mmKalloc (off size : ℕ) : Option ℕ := if 4 * 4096 < off + size then none else some (off + size)

/-- `mm_create` -/
def mmCreate (pl : Platform) (st : ExecState n V) : ExecState n V × Option MmStruct :=
  match mmKalloc st.mmPoolOff 16 with
  | none => (st, none)
  | some off =>
    match pagingCreatePml4 pl st.machine with
    | (s, 0) => ({ st with machine := s, mmPoolOff := off }, none)
    | (s, pml4) => ({ st with machine := s, mmPoolOff := off }, some ⟨pml4, []⟩)

/-- `mm_add_vma` for the stack, whose result is not looked at. -/
def mmAddVma (st : ExecState n V) (mm : MmStruct) (start stop flags : ℕ) : ExecState n V :=
  match mmKalloc st.mmPoolOff 32 with
  | none => st
  | some off =>
    { st with mmPoolOff := off, mm := some { mm with mmap := (start, stop, flags) :: mm.mmap } }

/-- A new frame for each of the pages: the loop over a segment and the one over the stack. -/
def mapFrames (pl : Platform) (pml4 : ℕ) : List ℕ → Machine → Machine × Bool
  | [], s => (s, true)
  | va :: vas, s =>
    match pfaAllocFrame pl s with
    | (s, 0) => (s, false)
    | (s, frame) => mapFrames pl pml4 vas (pagingMapPage pl s pml4 va frame faultFlags).1

/-- The loop of `elf_load_executable` over the program headers. The kernel stores to a virtual
address with `store`, through the tables that CR3 points to. -/
def loadSegments (pl : Platform) (store : Machine → ℕ → List UInt8 → Machine) (image : Bytes)
    (pml4 : ℕ) : List ℕ → Machine → Machine × Bool
  | [], s => (s, true)
  | ph :: phs, s =>
    if image.le ph 4 ≠ 1 then loadSegments pl store image pml4 phs s
    else
      let vaddr := image.le (ph + 16) 8
      let filesz := image.le (ph + 32) 8
      let memsz := image.le (ph + 40) 8
      let pages := (List.range ((memsz + 4095) / 4096)).map fun k =>
        (vaddr + k * 4096) % 2 ^ 64 / 4096 * 4096
      match mapFrames pl pml4 pages s with
      | (s, false) => (s, false)
      | (s, true) =>
        let s := store s vaddr (image.slice (image.le (ph + 8) 8) filesz)
        let bss := List.replicate ((memsz + 2 ^ 64 - filesz) % 2 ^ 64) 0
        loadSegments pl store image pml4 phs (store s ((vaddr + filesz) % 2 ^ 64) bss)

/-- `elf_load_executable`: the entry point, or `none` for an error. -/
def elfLoadExecutable (pl : Platform) (store : Machine → ℕ → List UInt8 → Machine) (image : Bytes)
    (pml4 : ℕ) (s : Machine) : Machine × Option UInt64 :=
  if image.slice 0 4 ≠ [0x7F, 0x45, 0x4C, 0x46] then (s, none)
  else
    let phs := (List.range (image.le 56 2)).map fun i => image.le 32 8 + i * 56
    match loadSegments pl store image pml4 phs s with
    | (s, false) => (s, none)
    | (s, true) => (s, some (UInt64.ofNat (image.le 24 8)))

/-- The number of bytes that `exec_process` asks for. -/
def execReadSize : Option ℤ → ℕ
  | some fsize => if fsize ≤ 0 ∨ 128 * 1024 < fsize then 128 * 1024 else fsize.toNat
  | none => 128 * 1024

/-- `USER_STACK_TOP` -/
def userStackTop : ℕ := 0x800000000000

/-- `exec_process` -/
def ExecState.execProcess (pl : Platform) (store : Machine → ℕ → List UInt8 → Machine)
    (call : ExecCall n P V) (st : ExecState n V) : ExecState n V × ℤ :=
  match call.proc, call.path with
  | none, _ => (st, -3)
  | some _, none => (st, -22)
  | some p, some path =>
    match call.resolveExecPath path with
    | none => (st, -2)
    | some vp =>
      let (nbytes, image) := call.vfsReadAt vp (execReadSize (call.vopGetsize vp))
      if nbytes ≤ 0 then (st, -5)
      else
        match mmCreate pl st with
        | (st, none) => ({ st with mm := none }, -12)
        | (st, some mm) =>
          match elfLoadExecutable pl store image mm.pml4Phys st.machine with
          | (s, none) => ({ st with machine := s, mm := some mm }, -22)
          | (s, some entry) =>
            let stackBase := userStackTop - 16 * 4096
            match mapFrames pl mm.pml4Phys
                ((List.range 16).map fun i => stackBase + i * 4096) s with
            | (s, false) => ({ st with machine := s, mm := some mm }, -12)
            | (s, true) =>
              ({ mmAddVma { st with machine := s, mm := some mm } mm stackBase userStackTop 3 with
                context := st.context.map fun c =>
                  { c with rip := entry, rsp := UInt64.ofNat (userStackTop - 8), rbp := 0 }
                files := fdCloseFrom 3 st.files p
                signals := ⟨fun _ => 0, 0, 0, 0, 0, false⟩ }, 0)

/-- The address space, the context, the descriptors and the handlers are what they were. -/
structure Unharmed (st st' : ExecState n V) : Prop where
  root : st'.mm.map (·.pml4Phys) = st.mm.map (·.pml4Phys)
  phys : ∀ mm ∈ st.mm, ∀ va,
    pagingGetPhys st'.machine mm.pml4Phys va = pagingGetPhys st.machine mm.pml4Phys va
  context : st'.context = st.context
  files : st'.files = st.files
  signals : st'.signals = st.signals

variable {pl : Platform} {st : ExecState n V}

/-- There is room in `mm_pool` and a frame for a new address space, which is then another than any
that is in use. -/
theorem mmCreate_cases (pl : Platform) (st : ExecState n V) :
    ((4 * 4096 < st.mmPoolOff + 16 ∨ (pfaAllocFrame pl st.machine).2 = 0) ∧
        ∃ s off, mmCreate pl st = ({ st with machine := s, mmPoolOff := off }, none)) ∨
      ¬ (4 * 4096 < st.mmPoolOff + 16 ∨ (pfaAllocFrame pl st.machine).2 = 0) ∧
        ∃ s off r, mmCreate pl st = ({ st with machine := s, mmPoolOff := off }, some ⟨r, []⟩) ∧
          st.machine.free r = true := by
  unfold mmCreate mmKalloc
  split_ifs with hroom
  · exact .inl ⟨.inl hroom, st.machine, st.mmPoolOff, rfl⟩
  rw [pagingCreatePml4, allocZeroedPage]
  rcases pfaAllocFrame_spec pl st.machine with ⟨free, halloc, -⟩ | ⟨c, hc, -, hfree, halloc⟩
  · rw [halloc]
    exact .inl ⟨.inr rfl, _, _, rfl⟩
  · obtain ⟨c, rfl⟩ := Nat.exists_eq_succ_of_ne_zero hc
    rw [halloc]
    exact .inr ⟨by simp [hroom], _, _, _, rfl, hfree⟩

/-- An `exec_process` that fails leaves the process as it was exactly if it fails before it has read
anything, or the process had no address space and gets none. -/
theorem failed_exec_unharmed_iff (pl : Platform) (store : Machine → ℕ → List UInt8 → Machine)
    (call : ExecCall n P V) (st : ExecState n V)
    (hroot : ∀ mm ∈ st.mm, st.machine.free mm.pml4Phys = false)
    (hfail : (st.execProcess pl store call).2 < 0) :
    Unharmed st (st.execProcess pl store call).1 ↔
      (∀ p path vp, call.proc = some p → call.path = some path →
          call.resolveExecPath path = some vp →
          (call.vfsReadAt vp (execReadSize (call.vopGetsize vp))).1 ≤ 0) ∨
        st.mm = none ∧ (4 * 4096 < st.mmPoolOff + 16 ∨ (pfaAllocFrame pl st.machine).2 = 0) := by
  have hsame : Unharmed st st := ⟨rfl, fun _ _ _ => rfl, rfl, rfl, rfl⟩
  unfold ExecState.execProcess at hfail ⊢
  split
  · exact iff_of_true hsame (.inl fun p _ _ hp => by simp_all)
  · exact iff_of_true hsame (.inl fun _ path _ _ hp => by simp_all)
  rename_i p path hproc hpath
  simp only [hproc, hpath] at hfail ⊢
  cases hvp : call.resolveExecPath path with
  | none => exact iff_of_true hsame (.inl fun p _ vp _ hp hvp' => by simp_all)
  | some vp =>
    simp only [hvp] at hfail ⊢
    by_cases hread : (call.vfsReadAt vp (execReadSize (call.vopGetsize vp))).1 ≤ 0
    · rw [if_pos hread]
      exact iff_of_true hsame (.inl fun p _ vp' _ hp hvp' => by simp_all)
    rw [if_neg hread] at hfail ⊢
    rw [or_iff_right fun h => hread (h p path vp rfl rfl hvp)]
    rcases mmCreate_cases pl st with ⟨hfull, s, off, hmm⟩ | ⟨hroom, s, off, r, hmm, hr⟩
    · rw [hmm, and_iff_left hfull]
      refine ⟨fun h => Option.map_eq_none_iff.mp h.root.symm, fun hnone => ?_⟩
      exact ⟨by rw [hnone], by simp [hnone], rfl, rfl, rfl⟩
    · have hgone : ∀ s', ¬ Unharmed st
          { st with machine := s', mmPoolOff := off, mm := some ⟨r, []⟩ } := by
        intro s' h
        obtain ⟨mm, hmem, rfl⟩ := Option.map_eq_some_iff.mp h.root.symm
        rw [hroot mm hmem] at hr
        cases hr
      simp only [hmm] at hfail ⊢
      refine iff_of_false ?_ fun h => hroom h.2
      split
      · exact hgone _
      · rename_i hload
        simp only [hload] at hfail
        split
        · exact hgone _
        · rename_i hstack
          simp [hstack] at hfail

/-- A process with the PML4 in frame 1. -/
def smallState : ExecState 1 Unit where
  machine := freshProcess.machine
  mmPoolOff := 0
  mm := some ⟨1, []⟩
  context := none
  files := ⟨fun _ => ⟨none, 0, 0, 0⟩, fun _ _ => none⟩
  signals := ⟨fun _ => 0, 0, 0, 0, 0, false⟩

/-- A file of one zero byte, which is no ELF image, behind every path. A read gives `got` bytes. -/
def zeroFile (got : ℤ) : ExecCall 1 Unit Unit where
  proc := some 0
  path := some ()
  resolveExecPath := some
  vopGetsize := fun _ => some 1
  vfsReadAt := fun _ _ => (got, fun _ => 0)

/-- The read fails. -/
theorem failed_exec_unharmed_unread :
    Unharmed smallState (smallState.execProcess smallPlatform (fun s _ _ => s) (zeroFile (-5))).1 :=
  (failed_exec_unharmed_iff smallPlatform (fun s _ _ => s) (zeroFile (-5)) smallState
    (by rintro _ ⟨⟩; decide) (by decide)).mpr (.inl fun _ _ _ _ _ _ => show (-5 : ℤ) ≤ 0 by decide)

/-- The file is refused when the process has lost its address space. -/
theorem failed_exec_replaces_root :
    let r := smallState.execProcess smallPlatform (fun s _ _ => s) (zeroFile 1)
    r.2 = -22 ∧ smallState.mm.map (·.pml4Phys) = some 1 ∧ r.1.mm.map (·.pml4Phys) = some 2 := by
  decide

end Tomahawk.Proc
