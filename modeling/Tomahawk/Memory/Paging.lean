import Tomahawk.Memory.Frames
import Mathlib.Algebra.GroupWithZero.Nat

/-!
# Page tables

The four-level page tables, their copy-on-write clone and the handler of copy-on-write
faults, with the walk of the processor for the loads and stores of user code. A table is
given by the number of its frame.
-/

namespace Tomahawk.Memory

open Function

/-- `PTE_PRESENT` -/
def Word.present (e : Word) : Bool := e.getLsbD 0

/-- `PTE_RW` -/
def Word.rw (e : Word) : Bool := e.getLsbD 1

/-- `PTE_USER` -/
def Word.user (e : Word) : Bool := e.getLsbD 2

/-- `PTE_PS`, a large page in a PDPT or a PD. -/
def Word.ps (e : Word) : Bool := e.getLsbD 7

/-- `PTE_COW` -/
def Word.cow (e : Word) : Bool := e.getLsbD 9

/-- `PTE_RW` -/
def pteRw : Word := 1 <<< 1

/-- `PTE_COW` -/
def pteCow : Word := 1 <<< 9

/-- A table has 512 entries. -/
scoped instance neZeroEntries : NeZero 512 := ⟨by decide⟩

/-- `PTE_ADDR_MASK` -/
def pteAddrMask : Word := 0x000FFFFFFFFFF000

/-- The frame that an entry points to. -/
def Word.frame (e : Word) : ℕ := (e &&& pteAddrMask).toNat / 4096

/-- An entry for frame `f` with the flags of `e`. -/
def withFrame (f : ℕ) (e : Word) : Word :=
  (BitVec.ofNat 64 (f * 4096) &&& pteAddrMask) ||| (e &&& ~~~pteAddrMask)

/-- Read-only and copy-on-write. -/
def markCow (e : Word) : Word := (e &&& ~~~pteRw) ||| pteCow

/-- Writable and no longer copy-on-write. -/
def clearCow (e : Word) : Word := (e ||| pteRw) &&& ~~~pteCow

def pml4Index (va : ℕ) : Fin 512 := Fin.ofNat 512 (va / 2 ^ 39)
def pdptIndex (va : ℕ) : Fin 512 := Fin.ofNat 512 (va / 2 ^ 30)
def pdIndex (va : ℕ) : Fin 512 := Fin.ofNat 512 (va / 2 ^ 21)
def ptIndex (va : ℕ) : Fin 512 := Fin.ofNat 512 (va / 2 ^ 12)

/-- `write_entry` -/
def Machine.writeEntry (s : Machine) (t : ℕ) (i : Fin 512) (e : Word) : Machine :=
  { s with mem := update s.mem t (update (s.mem t) i e) }

/-- `alloc_zeroed_page` -/
def allocZeroedPage (pl : Platform) (s : Machine) : Machine × ℕ :=
  match pfaAllocFrame pl s with
  | (s, 0) => (s, 0)
  | (s, c) => ({ s with mem := update s.mem c fun _ => 0 }, c)

/-- `paging_create_pml4` -/
def pagingCreatePml4 (pl : Platform) (s : Machine) : Machine × ℕ := allocZeroedPage pl s

/-- `paging_get_pte`: the table and the index of the entry for a page of 4 KiB. -/
def pagingGetPte (s : Machine) (pml4 va : ℕ) : Option (ℕ × Fin 512) :=
  if pml4 = 0 then none
  else
    let ent4 := s.mem pml4 (pml4Index va)
    if !ent4.present then none
    else
      let ent3 := s.mem ent4.frame (pdptIndex va)
      if !ent3.present then none
      else if ent3.ps then none
      else
        let ent2 := s.mem ent3.frame (pdIndex va)
        if !ent2.present then none
        else if ent2.ps then none
        else some (ent2.frame, ptIndex va)

/-- The copy of a page, word by word. -/
def copyPage (s : Machine) (old new : ℕ) : Machine :=
  { s with mem := update s.mem new (s.mem old) }

/-- `paging_handle_cow_fault` -/
def pagingHandleCowFault (pl : Platform) (s : Machine) (pml4 va : ℕ) : Machine × ℤ :=
  match pagingGetPte s pml4 va with
  | none => (s, -1)
  | some (pt, i) =>
    let pte := s.mem pt i
    if !pte.present then (s, -1)
    else if !pte.cow then (s, -2)
    else if refcountIsShared pl s pte.frame then
      match pfaAllocFrame pl s with
      | (s, 0) => (s, -3)
      | (s, new) =>
        let s := copyPage s pte.frame new
        let (s, oldRefs) := refcountDec pl s pte.frame
        let s := if oldRefs = 0 then pfaFreeFrame pl s pte.frame else s
        let s := refcountSet pl s new 1
        (s.writeEntry pt i (clearCow (withFrame new (s.mem pt i))), 0)
    else (s.writeEntry pt i (clearCow pte), 0)

/-- The frame is in the kernel image. -/
def isKernel (pl : Platform) (f : ℕ) : Bool := 0x100000 ≤ f * 4096 && f * 4096 < pl.kernelEnd

/-- One present entry of the innermost loop of `paging_clone_cow`. -/
def cloneEntry (pl : Platform) (src dst : ℕ) (i : Fin 512) (s : Machine) : Machine :=
  let phys := (s.mem src i).frame
  let s := s.writeEntry dst i (s.mem src i)
  if (s.mem src i).rw && !isKernel pl phys then
    let s := s.writeEntry src i (markCow (s.mem src i))
    let s := s.writeEntry dst i (markCow (s.mem dst i))
    let s := (refcountInc pl s phys).1
    (refcountInc pl s phys).1
  else if isKernel pl phys then (refcountInc pl s phys).1
  else s

/-- The innermost loop of `paging_clone_cow`, over the entries of a PT. -/
def clonePt (pl : Platform) (src dst : ℕ) : List (Fin 512) → Machine → Machine
  | [], s => s
  | i :: is, s =>
    if (s.mem src i).present then clonePt pl src dst is (cloneEntry pl src dst i s)
    else clonePt pl src dst is s

/-- A loop of `paging_clone_cow` over the entries of an upper table: the entries that
`keep` tells are copied, for the others a table is made and `child` fills it. The flag is
false if a table could not be allocated. -/
def cloneTable (pl : Platform) (keep : Fin 512 → Word → Bool)
    (child : ℕ → ℕ → Machine → Machine × Bool) (src dst : ℕ) :
    List (Fin 512) → Machine → Machine × Bool
  | [], s => (s, true)
  | i :: is, s =>
    if !(s.mem src i).present then cloneTable pl keep child src dst is s
    else if keep i (s.mem src i) then
      cloneTable pl keep child src dst is (s.writeEntry dst i (s.mem src i))
    else
      let srcChild := (s.mem src i).frame
      match allocZeroedPage pl s with
      | (s, 0) => (s, false)
      | (s, c) =>
        match child srcChild c (s.writeEntry dst i (withFrame c (s.mem src i))) with
        | (s, false) => (s, false)
        | (s, true) => cloneTable pl keep child src dst is s

/-- The loop over a PD. -/
def clonePd (pl : Platform) (src dst : ℕ) (s : Machine) : Machine × Bool :=
  cloneTable pl (fun _ e => e.ps)
    (fun src dst s => (clonePt pl src dst (List.finRange 512) s, true)) src dst
    (List.finRange 512) s

/-- The loop over a PDPT. -/
def clonePdpt (pl : Platform) (src dst : ℕ) (s : Machine) : Machine × Bool :=
  cloneTable pl (fun _ e => e.ps) (clonePd pl) src dst (List.finRange 512) s

/-- The loop over a PML4, whose upper half is shared. -/
def clonePml4 (pl : Platform) (src dst : ℕ) (s : Machine) : Machine × Bool :=
  cloneTable pl (fun i _ => decide (256 ≤ i.val)) (clonePdpt pl) src dst (List.finRange 512) s

/-- `paging_clone_cow`: the new PML4, or 0. -/
def pagingCloneCow (pl : Platform) (s : Machine) (src : ℕ) : Machine × ℕ :=
  if src = 0 then (s, 0)
  else
    match pagingCreatePml4 pl s with
    | (s, 0) => (s, 0)
    | (s, dst) =>
      match clonePml4 pl src dst s with
      | (s, true) => (s, dst)
      | (s, false) => (s, 0)

/-- An entry lets user code through, for a store if it is also writable. -/
def Word.permits (e : Word) (write : Bool) : Bool := e.present && e.user && (e.rw || !write)

/-- The walk of the processor for an access by user code: the frame and the byte offset in
it, unless the access faults. Large pages take the rest of the address from their base. -/
def userWalk (s : Machine) (pml4 va : ℕ) (write : Bool) : Option (ℕ × ℕ) :=
  let ent4 := s.mem pml4 (pml4Index va)
  if !ent4.permits write then none
  else
    let ent3 := s.mem ent4.frame (pdptIndex va)
    if !ent3.permits write then none
    else if ent3.ps then some (ent3.frame + va % 2 ^ 30 / 4096, va % 4096)
    else
      let ent2 := s.mem ent3.frame (pdIndex va)
      if !ent2.permits write then none
      else if ent2.ps then some (ent2.frame + va % 2 ^ 21 / 4096, va % 4096)
      else
        let ent1 := s.mem ent2.frame (ptIndex va)
        if !ent1.permits write then none else some (ent1.frame, va % 4096)

/-- The byte at an offset of a frame. -/
def Machine.byte (s : Machine) (f offset : ℕ) : BitVec 8 :=
  (s.mem f (Fin.ofNat 512 (offset / 8)) >>> (8 * (offset % 8))).setWidth 8

/-- Replace the byte at an offset of a frame. -/
def Machine.setByte (s : Machine) (f offset : ℕ) (b : BitVec 8) : Machine :=
  let i := Fin.ofNat 512 (offset / 8)
  let shift := 8 * (offset % 8)
  s.writeEntry f i ((s.mem f i &&& ~~~(0xFF#64 <<< shift)) ||| (b.setWidth 64 <<< shift))

/-- What user code reads at an address. -/
def userLoad (s : Machine) (pml4 va : ℕ) : Option (BitVec 8) :=
  (userWalk s pml4 va false).map fun (f, offset) => s.byte f offset

/-- The store once the walk permits it. -/
def tryStore (s : Machine) (pml4 va : ℕ) (b : BitVec 8) : Machine :=
  match userWalk s pml4 va true with
  | some (f, offset) => s.setByte f offset b
  | none => s

/-- A store by user code to a page that it can read. A page that is not writable is a
protection fault; the handler resolves it for a copy-on-write page and the store is retried,
otherwise the kernel panics. -/
def userStore (pl : Platform) (s : Machine) (pml4 va : ℕ) (b : BitVec 8) : Machine :=
  if (userWalk s pml4 va false).isNone then s
  else if (userWalk s pml4 va true).isSome then tryStore s pml4 va b
  else
    match pagingGetPte s pml4 va with
    | none => s
    | some (pt, i) =>
      if (s.mem pt i).cow then
        match pagingHandleCowFault pl s pml4 va with
        | (s, 0) => tryStore s pml4 va b
        | (s, _) => s
      else s

end Tomahawk.Memory
