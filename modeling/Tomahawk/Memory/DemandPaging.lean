import Tomahawk.Memory.PageTables
import Tomahawk.Lib.Run
import Mathlib.Order.Bounds.Basic

/-!
# Demand paging

`paging_map_page` and the handler of not-present faults, after a history of allocations, frees
and stores by other address spaces. The handler maps the frame that `pfa_alloc_frame` returns
without clearing it, so the process reads what its last owner left there.
-/

namespace Tomahawk.Memory

open Function Tomahawk.Lib

/-- `PTE_PRESENT` -/
def ptePresent : Word := 1

/-- `PTE_USER` -/
def pteUser : Word := 1 <<< 2

/-- `ensure_table_with_flags`: the table that an entry leads to, made if it is absent, or 0. -/
def ensureTableWithFlags (pl : Platform) (s : Machine) (parent : ℕ) (index : Fin 512)
    (flags : Word) : Machine × ℕ :=
  let ent := s.mem parent index
  if ent.present then
    (if flags.user then s.writeEntry parent index (ent ||| pteUser) else s, ent.frame)
  else
    match allocZeroedPage pl s with
    | (s, 0) => (s, 0)
    | (s, child) =>
      let newent := (BitVec.ofNat 64 (child * 4096) &&& pteAddrMask) ||| ptePresent ||| pteRw
      (s.writeEntry parent index (if flags.user then newent ||| pteUser else newent), child)

/-- `paging_map_page` -/
def pagingMapPage (pl : Platform) (s : Machine) (pml4 vaddr frame : ℕ) (flags : Word) :
    Machine × ℤ :=
  if pml4 = 0 then (s, -1)
  else
    match ensureTableWithFlags pl s pml4 (pml4Index vaddr) flags with
    | (s, 0) => (s, -1)
    | (s, pdpt) =>
      match ensureTableWithFlags pl s pdpt (pdptIndex vaddr) flags with
      | (s, 0) => (s, -1)
      | (s, pd) =>
        match ensureTableWithFlags pl s pd (pdIndex vaddr) flags with
        | (s, 0) => (s, -1)
        | (s, pt) => (s.writeEntry pt (ptIndex vaddr) (withFrame frame flags ||| ptePresent), 0)

/-- `PTE_PRESENT | PTE_RW | PTE_USER`, the flags of a page that is mapped on a fault. -/
def faultFlags : Word := ptePresent ||| pteRw ||| pteUser

/-- `page_not_present_handler`, in the address space of `cr3`. -/
def pageNotPresentHandler (pl : Platform) (s : Machine) (cr3 addr : ℕ) : Machine × ℤ :=
  if addr = 0 ∨ 0xFFFFFFFF80000000 ≤ addr then (s, -1)
  else
    match pfaAllocFrame pl s with
    | (s, 0) => (s, -1)
    | (s, phys) =>
      if cr3 = 0 then (s, -1)
      else
        match pagingMapPage pl s cr3 (addr / 4096 * 4096) phys faultFlags with
        | (s, 0) => (s, 0)
        | (s, _) => (s, -2)

/-! ## Histories of the other address spaces -/

/-- What the other address spaces do to the frames. -/
inductive FrameOp where
  | alloc
  | free (f : ℕ)
  | store (f offset : ℕ) (b : BitVec 8)

/-- The machine, with the frames that the other address spaces have. -/
structure Others where
  machine : Machine
  owned : ℕ → Bool

/-- An allocation gives a frame to another address space. It frees and stores to frames that
it has. -/
def othersStep (pl : Platform) (w : Others) : FrameOp → Others
  | .alloc =>
    match pfaAllocFrame pl w.machine with
    | (s, 0) => { w with machine := s }
    | (s, c) => ⟨s, update w.owned c true⟩
  | .free f =>
    if w.owned f then ⟨pfaFreeFrame pl w.machine f, update w.owned f false⟩ else w
  | .store f offset b =>
    if w.owned f then { w with machine := w.machine.setByte f offset b } else w

/-- The operation without the byte that it stores. -/
def FrameOp.erase : FrameOp → FrameOp
  | .store f offset _ => .store f offset 0
  | op => op

/-- The state after a history. -/
def afterHistory (pl : Platform) (w : Others) (ops : List FrameOp) : Others :=
  run (othersStep pl) w ops

/-- The byte that an operation stores at an offset of a frame. -/
def FrameOp.stored (w : Others) (f k : ℕ) : FrameOp → Option (BitVec 8)
  | .store g offset b => if w.owned g ∧ f = g ∧ k = offset % 4096 then some b else none
  | _ => none

/-- The byte that a history stored last at an offset of a frame. -/
def lastStored (pl : Platform) (f k : ℕ) : Others → List FrameOp → Option (BitVec 8)
  | _, [] => none
  | w, op :: ops => (lastStored pl f k (othersStep pl w op) ops).or (op.stored w f k)

/-- The tables on the way along the indices, as far as they exist. -/
def pathTables (s : Machine) : List (Fin 512) → ℕ → List ℕ
  | [], p => [p]
  | i :: is, p => p :: if (s.mem p i).present then pathTables s is (s.mem p i).frame else []

/-- No entry on the way is for a large page. -/
def NoLarge (s : Machine) : List (Fin 512) → ℕ → Prop
  | [], _ => True
  | i :: is, p =>
    (s.mem p i).present = true → (s.mem p i).ps = false ∧ NoLarge s is (s.mem p i).frame

/-- The indices that lead to the PT for an address. -/
def indicesOf (va : ℕ) : List (Fin 512) := [pml4Index va, pdptIndex va, pdIndex va]

/-- The process in which the address faults has tables of its own: they are distinct, in use,
and not frames of the other address spaces. -/
structure OwnTables (w : Others) (cr3 va : ℕ) : Prop where
  nodup : (pathTables w.machine (indicesOf va) cr3).Nodup
  used : ∀ f ∈ pathTables w.machine (indicesOf va) cr3, w.machine.free f = false
  apart : ∀ f ∈ pathTables w.machine (indicesOf va) cr3, w.owned f = false
  noLarge : NoLarge w.machine (indicesOf va) cr3

/-! ## Entries that the handler writes -/

variable {pl : Platform} {s s' : Machine} {e : Word}

section

variable (e : Word)

theorem frame_or_pteUser : (e ||| pteUser).frame = e.frame := by
  unfold Word.frame
  have huser : pteUser &&& pteAddrMask = 0#64 := by decide
  rw [BitVec.and_or_distrib_right, huser, BitVec.or_zero]

theorem frame_or_ptePresent : (e ||| ptePresent).frame = e.frame := by
  unfold Word.frame
  have hpresent : ptePresent &&& pteAddrMask = 0#64 := by decide
  rw [BitVec.and_or_distrib_right, hpresent, BitVec.or_zero]

@[simp]
theorem present_or_ptePresent : (e ||| ptePresent).present = true := by
  simp [Word.present, ptePresent]

@[simp]
theorem user_or_ptePresent : (e ||| ptePresent).user = e.user := by
  simp [Word.user, ptePresent]

@[simp]
theorem user_or_pteUser : (e ||| pteUser).user = true := by
  simp [Word.user, pteUser]

@[simp]
theorem present_or_pteUser : (e ||| pteUser).present = e.present := by
  simp [Word.present, pteUser]

@[simp]
theorem ps_or_pteUser : (e ||| pteUser).ps = e.ps := by
  simp [Word.ps, pteUser]

end

/-- The walk for a read passes through a present user entry. -/
theorem permits_of_user (hpresent : e.present = true) (huser : e.user = true) :
    e.permits false = true := by
  simp [Word.permits, hpresent, huser]

/-! ## The way to the page table -/

/-- The machine after a table was made in frame `c` and linked. -/
def linkTable (s : Machine) (t : ℕ) (i : Fin 512) (e : Word) (c : ℕ) : Machine :=
  Machine.writeEntry { s with
    mem := update s.mem c fun _ => 0
    free := update s.free c false } t i e

theorem linkTable_mem (s : Machine) (t : ℕ) (i : Fin 512) (e : Word) (c t' : ℕ) (j : Fin 512) :
    (linkTable s t i e c).mem t' j =
      if t' = t ∧ j = i then e else if t' = c then 0 else s.mem t' j := by
  rw [linkTable, Machine.writeEntry_mem]
  by_cases hc : t' = c
  · subst hc
    simp
  · simp [hc]

/-- The new table is empty. -/
theorem linkTable_zero (s : Machine) {t c : ℕ} (hne : c ≠ t) (i : Fin 512) (e : Word)
    (j : Fin 512) : (linkTable s t i e c).mem c j = 0 := by
  rw [linkTable_mem, if_neg fun h => hne h.1, if_pos rfl]

/-- `ensure_table_with_flags` enters a table that exists, or makes one in a free frame, or fails for
want of a frame. -/
theorem ensureTable_cases (pl : Platform) (s : Machine) (p : ℕ) (i : Fin 512) (flags : Word) :
    ((s.mem p i).present = true ∧ ensureTableWithFlags pl s p i flags =
      (if flags.user then s.writeEntry p i (s.mem p i ||| pteUser) else s, (s.mem p i).frame)) ∨
    (s.mem p i).present = false ∧
      ((∃ free, ensureTableWithFlags pl s p i flags = ({ s with free := free }, 0) ∧
          ∀ f, s.free f = false → free f = false) ∨
        ∃ c e, ensureTableWithFlags pl s p i flags = (linkTable s p i e (c + 1), c + 1) ∧
          s.free (c + 1) = true ∧ e.present = true ∧ e.frame = c + 1 ∧ e.ps = false ∧
            e.user = flags.user) := by
  unfold ensureTableWithFlags allocZeroedPage
  cases hpresent : (s.mem p i).present with
  | true => exact .inl ⟨rfl, by simp only [hpresent, if_true]⟩
  | false =>
    refine .inr ⟨rfl, ?_⟩
    simp only [hpresent, Bool.false_eq_true, if_false]
    rcases pfaAllocFrame_spec pl s with ⟨free, halloc, hkept⟩ | ⟨c, hc, hlt, hfree, halloc⟩
    · rw [halloc]
      exact .inl ⟨free, rfl, hkept⟩
    · obtain ⟨n, rfl⟩ := Nat.exists_eq_succ_of_ne_zero hc
      have hbits := pl.bitmapBits_le
      have hflags : (ptePresent ||| pteRw) &&& ~~~pteAddrMask = ptePresent ||| pteRw := by decide
      have hnewent : (BitVec.ofNat 64 ((n + 1) * 4096) &&& pteAddrMask) ||| ptePresent ||| pteRw =
          withFrame (n + 1) (ptePresent ||| pteRw) := by
        rw [withFrame, hflags, BitVec.or_assoc]
      have hframe := frame_withFrame (show n + 1 < 2 ^ 40 by omega) (ptePresent ||| pteRw)
      have hbools : (ptePresent ||| pteRw).present = true ∧ (ptePresent ||| pteRw).ps = false ∧
          (ptePresent ||| pteRw).user = false := by decide
      rw [halloc]
      refine .inr ⟨n, _, rfl, hfree, ?_⟩
      rw [hnewent]
      split_ifs with huser
      · simp [frame_or_pteUser, hframe, hbools, huser]
      · simp [hframe, hbools, huser]

/-- The entry lets user code pass to `c`, and the frames in use other than the parent stay. -/
structure Entered (s s' : Machine) (p : ℕ) (i : Fin 512) (c : ℕ) : Prop where
  present : (s'.mem p i).present = true
  user : (s'.mem p i).user = true
  ps : (s'.mem p i).ps = false
  frame : (s'.mem p i).frame = c
  used : ∀ f, s.free f = false → s'.free f = false
  mem : ∀ f ≠ p, s.free f = false → s'.mem f = s.mem f

variable {p c : ℕ} {i : Fin 512} {flags : Word} {is : List (Fin 512)} {l : List ℕ}
  {t f k va cr3 : ℕ}

/-- The tables along a list of indices, each one made if it is absent. -/
def ensurePath (pl : Platform) (flags : Word) : List (Fin 512) → Machine → ℕ → Machine × ℕ
  | [], s, p => (s, p)
  | i :: is, s, p =>
    match ensureTableWithFlags pl s p i flags with
    | (s, 0) => (s, 0)
    | (s, c) => ensurePath pl flags is s c

theorem ensurePath_cons (pl : Platform) (s : Machine) (p : ℕ) (i : Fin 512) (flags : Word)
    (is : List (Fin 512)) : ensurePath pl flags (i :: is) s p =
      if (ensureTableWithFlags pl s p i flags).2 = 0 then ((ensureTableWithFlags pl s p i flags).1, 0)
      else ensurePath pl flags is (ensureTableWithFlags pl s p i flags).1
        (ensureTableWithFlags pl s p i flags).2 := by
  rw [ensurePath]
  rcases ensureTableWithFlags pl s p i flags with ⟨s', _ | c⟩ <;> rfl

/-- `paging_map_page` goes along the indices of the address and writes the entry of the page. -/
theorem pagingMapPage_eq {pml4 vaddr frame : ℕ} (hpml4 : pml4 ≠ 0) :
    pagingMapPage pl s pml4 vaddr frame flags =
      match ensurePath pl flags (indicesOf vaddr) s pml4 with
      | (s, 0) => (s, -1)
      | (s, pt) =>
        (s.writeEntry pt (ptIndex vaddr) (withFrame frame flags ||| ptePresent), 0) := by
  simp only [pagingMapPage, hpml4, if_false, indicesOf, ensurePath]
  rcases ensureTableWithFlags pl s pml4 (pml4Index vaddr) flags with ⟨s₁, _ | t₁⟩
  · rfl
  simp only
  rcases ensureTableWithFlags pl s₁ (t₁ + 1) (pdptIndex vaddr) flags with ⟨s₂, _ | t₂⟩
  · rfl
  simp only
  rcases ensureTableWithFlags pl s₂ (t₂ + 1) (pdIndex vaddr) flags with ⟨s₃, _ | t₃⟩
  · rfl
  · rfl

/-- From `p` the entries along the indices let user code pass to `t`, through the tables `l`. -/
def Leads (s : Machine) : List (Fin 512) → ℕ → List ℕ → ℕ → Prop
  | [], p, l, t => l = [] ∧ p = t
  | i :: is, p, l, t =>
    (s.mem p i).present = true ∧ (s.mem p i).user = true ∧ (s.mem p i).ps = false ∧
      ∃ l', l = p :: l' ∧ Leads s is (s.mem p i).frame l' t

/-- Only the tables on the way matter. -/
theorem Leads.congr (h : Leads s is p l t) (hmem : ∀ f ∈ l, s'.mem f = s.mem f) :
    Leads s' is p l t := by
  induction is generalizing p l with
  | nil => exact h
  | cons i is ih =>
    obtain ⟨hpresent, huser, hps, l', rfl, hrest⟩ := h
    have hp := hmem p List.mem_cons_self
    refine ⟨by rw [hp, hpresent], by rw [hp, huser], by rw [hp, hps], l', rfl, ?_⟩
    rw [hp]
    exact ih hrest fun f hf => hmem f (.tail _ hf)

theorem mem_pathTables_self (s : Machine) (is : List (Fin 512)) (p : ℕ) :
    p ∈ pathTables s is p := by
  cases is <;> simp [pathTables]

theorem pathTables_congr (hmem : ∀ f ∈ pathTables s is p, s'.mem f = s.mem f) :
    pathTables s' is p = pathTables s is p ∧ (NoLarge s is p → NoLarge s' is p) := by
  induction is generalizing p with
  | nil => exact ⟨rfl, id⟩
  | cons i is ih =>
    have hp := hmem p (mem_pathTables_self _ _ _)
    simp only [pathTables, NoLarge, hp] at hmem ⊢
    cases hpresent : (s.mem p i).present with
    | false => exact ⟨rfl, fun _ h => nomatch h⟩
    | true =>
      simp only [hpresent, if_true] at hmem ⊢
      obtain ⟨htables, hlarge⟩ := ih fun f hf => hmem f (.tail _ hf)
      rw [htables]
      exact ⟨rfl, fun h _ => ⟨(h trivial).1, hlarge (h trivial).2⟩⟩

/-- The tables of a way are distinct, in use and not large. -/
structure PathOk (s : Machine) (is : List (Fin 512)) (p : ℕ) : Prop where
  nodup : (pathTables s is p).Nodup
  used : ∀ f ∈ pathTables s is p, s.free f = false
  noLarge : NoLarge s is p

theorem PathOk.congr (h : PathOk s is p)
    (hmem : ∀ f ∈ pathTables s is p, s'.mem f = s.mem f)
    (hused : ∀ f ∈ pathTables s is p, s'.free f = false) :
    pathTables s' is p = pathTables s is p ∧ PathOk s' is p := by
  obtain ⟨htables, hlarge⟩ := pathTables_congr hmem
  refine ⟨htables, ?_, ?_, hlarge h.noLarge⟩ <;> rw [htables]
  · exact h.nodup
  · exact hused

/-- Nothing is below a table of zeros. -/
theorem pathOk_zero (is : List (Fin 512)) (hp : s.free p = false) (hzero : ∀ j, s.mem p j = 0) :
    pathTables s is p = [p] ∧ PathOk s is p := by
  have h : pathTables s is p = [p] ∧ NoLarge s is p := by
    cases is with
    | nil => exact ⟨rfl, trivial⟩
    | cons i is =>
      have habsent : (s.mem p i).present = false := by
        rw [hzero]
        rfl
      simp [pathTables, NoLarge, habsent]
  refine ⟨h.1, ?_, ?_, h.2⟩ <;> simp [h.1, hp]

/-- The table that is entered, or made in a free frame, begins a way that does not come back, of
tables from before or the new one. -/
theorem PathOk.ensureTable (h : PathOk s (i :: is) p) (huser : flags.user = true)
    (hensure : ensureTableWithFlags pl s p i flags = (s', c)) (hc : c ≠ 0) :
    Entered s s' p i c ∧ p ∉ pathTables s' is c ∧ PathOk s' is c ∧
      ∀ f ∈ pathTables s' is c, f ∈ pathTables s (i :: is) p ∨
        s.free f = true ∧ (s.mem p i).present = false ∧ f = c := by
  rcases ensureTable_cases pl s p i flags with ⟨hpresent, heq⟩ | ⟨habsent, ⟨free, heq, -⟩ |
    ⟨n, e, heq, hfree, hpresent, hframe, hps, hentry⟩⟩ <;> rw [heq] at hensure
  · cases hensure
    rw [if_pos huser]
    have htables : pathTables s (i :: is) p = p :: pathTables s is (s.mem p i).frame := by
      simp only [pathTables, hpresent, if_true]
    obtain ⟨hps, hbelow⟩ := h.noLarge hpresent
    obtain ⟨hnodup, hused, -⟩ := h
    rw [htables] at hnodup hused ⊢
    obtain ⟨hnot, hnodup⟩ := List.nodup_cons.mp hnodup
    have hself : (s.writeEntry p i (s.mem p i ||| pteUser)).mem p i = s.mem p i ||| pteUser := by
      rw [Machine.writeEntry_mem, if_pos ⟨rfl, rfl⟩]
    have hother : ∀ f ≠ p, (s.writeEntry p i (s.mem p i ||| pteUser)).mem f = s.mem f :=
      fun f hf => update_of_ne hf _ _
    have hrest : PathOk s is (s.mem p i).frame :=
      ⟨hnodup, fun f hf => hused f (.tail _ hf), hbelow⟩
    have hkept : ∀ f ∈ pathTables s is (s.mem p i).frame,
        (s.writeEntry p i (s.mem p i ||| pteUser)).mem f = s.mem f :=
      fun f hf => hother f fun hfp => hnot (hfp ▸ hf)
    obtain ⟨hsame, hpath⟩ := hrest.congr hkept hrest.used
    rw [hsame]
    refine ⟨⟨?_, ?_, ?_, ?_, fun f hf => hf, fun f hf _ => hother f hf⟩, hnot, hpath,
      fun f hf => .inl (.tail _ hf)⟩
    · rw [hself, present_or_pteUser, hpresent]
    · rw [hself, user_or_pteUser]
    · rw [hself, ps_or_pteUser, hps]
    · rw [hself, frame_or_pteUser]
  · exact absurd (Prod.mk.inj hensure).2.symm hc
  · cases hensure
    have hself : (linkTable s p i e (n + 1)).mem p i = e := by rw [linkTable_mem, if_pos ⟨rfl, rfl⟩]
    have hne := Machine.ne_of_free (h.used p (mem_pathTables_self _ _ _)) hfree
    obtain ⟨hbelow, hpath⟩ :=
      pathOk_zero is (update_self _ _ _) (linkTable_zero s hne.symm i e)
    rw [hbelow]
    refine ⟨⟨?_, ?_, ?_, ?_, fun f hf => update_used hf _, fun f hf hused => ?_⟩,
      List.mem_singleton.not.mpr hne, hpath, fun f hf => .inr ?_⟩
    · rw [hself, hpresent]
    · rw [hself, hentry, huser]
    · rw [hself, hps]
    · rw [hself, hframe]
    · funext j
      rw [linkTable_mem, if_neg fun h => hf h.1, if_neg (Machine.ne_of_free hused hfree)]
    · rw [List.mem_singleton.mp hf]
      exact ⟨hfree, habsent, rfl⟩

/-- What the way to the page table does: the entries lead to `t`, which is not one of the
tables above it, and frames in use that are not on the way stay. -/
structure Reached (s s' : Machine) (is : List (Fin 512)) (p t : ℕ) (l : List ℕ) : Prop where
  leads : Leads s' is p l t
  above : t ∉ l
  origin : t ∈ pathTables s is p ∨ s.free t = true
  kept : ∀ f, s.free f = false → f ∉ pathTables s is p → s'.mem f = s.mem f

/-- The way goes on below a table that was entered. -/
theorem Reached.cons {s₁ : Machine} (hp : s.free p = false) (henter : Entered s s₁ p i c)
    (hbelow : p ∉ pathTables s₁ is c) (h : Reached s₁ s' is c t l)
    (hcases : ∀ f ∈ pathTables s₁ is c, f ∈ pathTables s (i :: is) p ∨ s.free f = true) :
    Reached s s' (i :: is) p t (p :: l) := by
  have hmem : s'.mem p = s₁.mem p := h.kept p (henter.used p hp) hbelow
  refine ⟨⟨?_, ?_, ?_, l, rfl, ?_⟩, ?_, ?_, fun f hf hpath => ?_⟩
  · rw [hmem, henter.present]
  · rw [hmem, henter.user]
  · rw [hmem, henter.ps]
  · rw [hmem, henter.frame]
    exact h.leads
  · rw [List.mem_cons, not_or]
    refine ⟨?_, h.above⟩
    rintro rfl
    rcases h.origin with hpath | hfree
    · exact hbelow hpath
    · exact Machine.ne_of_free (henter.used t hp) hfree rfl
  · refine h.origin.elim (hcases t) fun hfree => .inr ?_
    by_contra hused
    rw [henter.used t (by simpa using hused)] at hfree
    cases hfree
  · have hfp : f ≠ p := by
      rintro rfl
      exact hpath (mem_pathTables_self _ _ _)
    rw [h.kept f (henter.used f hf) fun hmem => ?_, henter.mem f hfp hf]
    exact (hcases f hmem).elim hpath fun hfree => Machine.ne_of_free hf hfree rfl

/-- The tables along the indices are all entered, if there are frames for those to be made. -/
theorem PathOk.ensurePath_eq (h : PathOk s is p) (huser : flags.user = true)
    (ht : (ensurePath pl flags is s p).2 ≠ 0) :
    ∃ s' t l, ensurePath pl flags is s p = (s', t) ∧ Reached s s' is p t l := by
  induction is generalizing s p with
  | nil => exact ⟨s, p, [], rfl, ⟨rfl, rfl⟩, by simp, .inl (by simp [pathTables]), fun _ _ _ => rfl⟩
  | cons i is ih =>
    rw [ensurePath_cons] at ht ⊢
    split_ifs at ht ⊢ with hc
    · exact absurd rfl ht
    obtain ⟨henter, hbelow, hpath, hcases⟩ := h.ensureTable huser rfl hc
    obtain ⟨s', t, l, heq, hreached⟩ := ih hpath ht
    exact ⟨s', t, p :: l, heq, hreached.cons (h.used p (mem_pathTables_self _ _ _)) henter hbelow
      fun f hf => (hcases f hf).imp_right And.left⟩

/-- An allocation goes by the bitmap alone. -/
theorem pfaAllocFrame_congr (pl : Platform) (hfree : s'.free = s.free) :
    (pfaAllocFrame pl s').2 = (pfaAllocFrame pl s).2 ∧
      (pfaAllocFrame pl s').1.free = (pfaAllocFrame pl s).1.free := by
  unfold pfaAllocFrame
  rw [hfree]
  cases findFree s.free pl.bitmapBits 0 with
  | none => exact ⟨rfl, hfree⟩
  | some c => exact ⟨rfl, rfl⟩

theorem pfaAllocFrame_mem (pl : Platform) (s : Machine) :
    (pfaAllocFrame pl s).1.mem = s.mem := by
  unfold pfaAllocFrame
  cases findFree s.free pl.bitmapBits 0 <;> rfl

/-- An allocation frees nothing. -/
theorem pfaAllocFrame_used (pl : Platform) (hf : s.free f = false) :
    (pfaAllocFrame pl s).1.free f = false := by
  rcases pfaAllocFrame_spec pl s with ⟨free, halloc, hkeep⟩ | ⟨c, -, -, -, halloc⟩
  · rw [halloc]
    exact hkeep f hf
  · rw [halloc]
    exact update_used hf c

/-- A table is entered or made alike in two machines with the same bitmap and the same parent. -/
theorem ensureTable_congr (pl : Platform) (i : Fin 512) (flags : Word) (hmem : s'.mem p = s.mem p)
    (hfree : s'.free = s.free) :
    (ensureTableWithFlags pl s' p i flags).2 = (ensureTableWithFlags pl s p i flags).2 ∧
      (ensureTableWithFlags pl s' p i flags).1.free = (ensureTableWithFlags pl s p i flags).1.free ∧
      ∀ f, s'.mem f = s.mem f ∨
          (s.mem p i).present = false ∧ f = (ensureTableWithFlags pl s p i flags).2 ∧ f ≠ 0 →
        (ensureTableWithFlags pl s' p i flags).1.mem f =
          (ensureTableWithFlags pl s p i flags).1.mem f := by
  unfold ensureTableWithFlags allocZeroedPage pfaAllocFrame
  simp only [hmem, hfree]
  cases hpresent : (s.mem p i).present with
  | true =>
    refine ⟨rfl, ?_, fun f hf => ?_⟩
    · cases flags.user <;> exact hfree
    · replace hf := hf.resolve_right (by simp)
      cases flags.user <;> simp [Machine.writeEntry, update_apply, hf, hmem]
  | false =>
    simp only [Bool.false_eq_true, if_false]
    rcases findFree s.free pl.bitmapBits 0 with _ | _ | c
    · exact ⟨rfl, hfree, fun f hf => hf.resolve_right fun h => h.2.2 h.2.1⟩
    · exact ⟨rfl, rfl, fun f hf => hf.resolve_right fun h => h.2.2 h.2.1⟩
    · refine ⟨rfl, rfl, fun f hf => ?_⟩
      simp only [Machine.writeEntry, update_apply, hmem]
      rcases hf with hf | ⟨-, rfl, -⟩
      · rw [hf]
      · simp

/-- The way is the same in two machines with the same bitmap that agree on its tables. -/
theorem PathOk.ensurePath_congr (h : PathOk s is p) (huser : flags.user = true)
    (hmem : ∀ f ∈ pathTables s is p, s'.mem f = s.mem f) (hfree : s'.free = s.free) :
    (ensurePath pl flags is s' p).2 = (ensurePath pl flags is s p).2 := by
  induction is generalizing s s' p with
  | nil => rfl
  | cons i is ih =>
    have hself := mem_pathTables_self s (i :: is) p
    obtain ⟨hsnd, hfst, hkeep⟩ := ensureTable_congr pl i flags (hmem p hself) hfree
    rw [ensurePath_cons, ensurePath_cons, hsnd]
    split_ifs with hc
    · rfl
    obtain ⟨-, -, hpath, hcases⟩ := h.ensureTable huser rfl hc
    refine ih hpath (fun f hf => hkeep f ((hcases f hf).imp (hmem f) fun hnew => ?_)) hfst
    exact ⟨hnew.2.1, hnew.2.2, hnew.2.2 ▸ hc⟩

/-! ## What the process reads -/

/-- The indices of the addresses of a page are those of its base. -/
theorem index_page (va : ℕ) (hk : k < 4096) :
    indicesOf (va / 4096 * 4096 + k) = indicesOf va ∧
      ptIndex (va / 4096 * 4096 + k) = ptIndex va ∧ (va / 4096 * 4096 + k) % 4096 = k := by
  refine ⟨?_, ?_, by omega⟩
  · simp only [indicesOf, pml4Index, pdptIndex, pdIndex]
    rw [show (va / 4096 * 4096 + k) / 2 ^ 39 = va / 2 ^ 39 by omega,
      show (va / 4096 * 4096 + k) / 2 ^ 30 = va / 2 ^ 30 by omega,
      show (va / 4096 * 4096 + k) / 2 ^ 21 = va / 2 ^ 21 by omega]
  · simp only [ptIndex]
    rw [show (va / 4096 * 4096 + k) / 2 ^ 12 = va / 2 ^ 12 by omega]

/-- The walk of the processor along entries that let it pass. -/
theorem userWalk_of_leads {r : ℕ} (h : Leads s (indicesOf va) r l t)
    (hpresent : (s.mem t (ptIndex va)).present = true) (huser : (s.mem t (ptIndex va)).user = true)
    (hframe : (s.mem t (ptIndex va)).frame = f) :
    userWalk s r va false = some (f, va % 4096) := by
  obtain ⟨h4, hu4, -, l₄, rfl, h3, hu3, hps3, l₃, rfl, h2, hu2, hps2, l₂, rfl, -, rfl⟩ := h
  simp [userWalk, permits_of_user h4 hu4, permits_of_user h3 hu3, permits_of_user h2 hu2,
    permits_of_user hpresent huser, hps3, hps2, hframe]

/-- The handler with a frame `c`. -/
theorem pageNotPresentHandler_eq {s₀ : Machine} (haddr : ¬ (va = 0 ∨ 0xFFFFFFFF80000000 ≤ va))
    (halloc : pfaAllocFrame pl s = (s₀, c)) (hc : c ≠ 0) (hcr3 : cr3 ≠ 0) :
    pageNotPresentHandler pl s cr3 va =
      match ensurePath pl faultFlags (indicesOf va) s₀ cr3 with
      | (s, 0) => (s, -2)
      | (s, pt) =>
        (s.writeEntry pt (ptIndex va) (withFrame c faultFlags ||| ptePresent), 0) := by
  obtain ⟨hindices, hpt, -⟩ := index_page va (show 0 < 4096 by decide)
  rw [Nat.add_zero] at hindices hpt
  rw [pageNotPresentHandler, if_neg haddr, halloc]
  cases c with
  | zero => exact absurd rfl hc
  | succ n =>
    simp only [hcr3, if_false, pagingMapPage_eq hcr3, hindices, hpt]
    rcases ensurePath pl faultFlags (indicesOf va) s₀ cr3 with ⟨s', _ | t⟩
    · rfl
    · rfl

/-- The handler succeeds if it gets a frame for the page and the way to the page table. -/
theorem pageNotPresentHandler_eq_zero :
    (pageNotPresentHandler pl s cr3 va).2 = 0 ↔
      ¬ (va = 0 ∨ 0xFFFFFFFF80000000 ≤ va) ∧ cr3 ≠ 0 ∧ (pfaAllocFrame pl s).2 ≠ 0 ∧
        (ensurePath pl faultFlags (indicesOf va) (pfaAllocFrame pl s).1 cr3).2 ≠ 0 := by
  by_cases haddr : va = 0 ∨ 0xFFFFFFFF80000000 ≤ va
  · simp [pageNotPresentHandler, haddr]
  generalize halloc : pfaAllocFrame pl s = x
  obtain ⟨s₀, c⟩ := x
  by_cases hc : c = 0
  · simp [pageNotPresentHandler, haddr, halloc, hc]
  by_cases hcr3 : cr3 = 0
  · subst hcr3
    have heq : pageNotPresentHandler pl s 0 va = (s₀, -1) := by
      rw [pageNotPresentHandler, if_neg haddr, halloc]
      cases c with
      | zero => exact absurd rfl hc
      | succ n => rfl
    simp [heq]
  rw [pageNotPresentHandler_eq haddr halloc hc hcr3]
  rcases ensurePath pl faultFlags (indicesOf va) s₀ cr3 with ⟨s', _ | t⟩
  · simp
  · simpa [hcr3, hc] using haddr

/-- The process reads the bytes that were in the frame before the fault. -/
theorem PathOk.load (hpath : PathOk s (indicesOf va) cr3) (h : (pageNotPresentHandler pl s cr3 va).2 = 0)
    (hk : k < 4096) :
    userLoad (pageNotPresentHandler pl s cr3 va).1 cr3 (va / 4096 * 4096 + k) =
      some (s.byte (pfaAllocFrame pl s).2 k) := by
  obtain ⟨haddr, hcr3, hc, ht⟩ := pageNotPresentHandler_eq_zero.mp h
  rcases pfaAllocFrame_spec pl s with ⟨free, halloc, -⟩ | ⟨c, -, hlt, hfree, halloc⟩
  · rw [halloc] at hc
    exact absurd rfl hc
  rw [halloc] at hc ht ⊢
  set s₀ : Machine := { s with free := update s.free c false } with hs₀
  have hsame : pathTables s₀ (indicesOf va) cr3 = pathTables s (indicesOf va) cr3 ∧
      PathOk s₀ (indicesOf va) cr3 :=
    hpath.congr (fun _ _ => rfl) fun f hf => update_used (hpath.used f hf) c
  obtain ⟨htables, hpath₀⟩ := hsame
  -- The new frame was free, so it is none of the tables.
  have hcpath : c ∉ pathTables s (indicesOf va) cr3 := fun hmem =>
    Machine.ne_of_free (hpath.used c hmem) hfree rfl
  obtain ⟨s', t, l, hensure, hreached⟩ := hpath₀.ensurePath_eq (by decide) ht
  have ht0 : t ≠ 0 := by rwa [hensure] at ht
  have heq : (pageNotPresentHandler pl s cr3 va).1 =
      s'.writeEntry t (ptIndex va) (withFrame c faultFlags ||| ptePresent) := by
    rw [pageNotPresentHandler_eq haddr halloc hc hcr3, hensure]
    cases t with
    | zero => exact absurd rfl ht0
    | succ n => rfl
  have hc₀ : s₀.free c = false := update_self _ _ _
  have hct : c ≠ t := by
    rintro rfl
    rcases hreached.origin with hmem | hfree'
    · exact hcpath hmem
    · exact Machine.ne_of_free hc₀ hfree' rfl
  have hmem : (s'.writeEntry t (ptIndex va) (withFrame c faultFlags ||| ptePresent)).mem c =
      s.mem c := by
    refine (update_of_ne hct _ _).trans ?_
    exact hreached.kept c hc₀ (by rw [htables]; exact hcpath)
  have hleads : Leads (s'.writeEntry t (ptIndex va) (withFrame c faultFlags ||| ptePresent))
      (indicesOf va) cr3 l t := by
    refine hreached.leads.congr fun f hf => update_of_ne ?_ _ _
    rintro rfl
    exact hreached.above hf
  have hleaf : (s'.writeEntry t (ptIndex va) (withFrame c faultFlags ||| ptePresent)).mem t
      (ptIndex va) = withFrame c faultFlags ||| ptePresent := by
    rw [Machine.writeEntry_mem, if_pos ⟨rfl, rfl⟩]
  obtain ⟨hindices, hpt, hoffset⟩ := index_page va hk
  have hbits := pl.bitmapBits_le
  have hwalk : userWalk (s'.writeEntry t (ptIndex va) (withFrame c faultFlags ||| ptePresent)) cr3
      (va / 4096 * 4096 + k) false = some (c, k) := by
    rw [userWalk_of_leads (by rwa [hindices]) (f := c) ?_ ?_ ?_, hoffset]
    · rw [hpt, hleaf, present_or_ptePresent]
    · rw [hpt, hleaf, user_or_ptePresent, user_withFrame]
      decide
    · rw [hpt, hleaf, frame_or_ptePresent, frame_withFrame (by omega)]
  rw [heq, userLoad, hwalk]
  simp only [Option.map_some, Machine.byte, hmem]

/-- Bit `j` of byte `n` of a word in which byte `m` was replaced. -/
theorem getLsbD_replaceByte (w : Word) (b : BitVec 8) {m n j : ℕ} (hn : n < 8) (hj : j < 8) :
    ((w &&& ~~~(0xFF#64 <<< (8 * m))) ||| (b.setWidth 64 <<< (8 * m))).getLsbD (8 * n + j) =
      if n = m then b.getLsbD j else w.getLsbD (8 * n + j) := by
  have hmask : ∀ i < 64, (0xFF#64).getLsbD i = decide (i < 8) := by decide
  have hlt : 8 * n + j < 64 := by omega
  simp only [BitVec.getLsbD_or, BitVec.getLsbD_and, BitVec.getLsbD_not, BitVec.getLsbD_shiftLeft,
    BitVec.getLsbD_setWidth, hlt, decide_true, Bool.true_and,
    hmask (8 * n + j - 8 * m) (by omega)]
  rcases lt_trichotomy n m with h | rfl | h
  · simp [show 8 * n + j < 8 * m by omega, h.ne]
  · simp [hj, show j < 64 by omega, show ¬ 8 * n + j < 8 * n by omega]
  · have hbit : b.getLsbD (8 * n + j - 8 * m) = false := BitVec.getLsbD_of_ge _ _ (by omega)
    simp [show ¬ 8 * n + j < 8 * m by omega, h.ne', hbit]
    omega

/-- A stored byte is read back, and no other byte changes. -/
theorem Machine.byte_setByte (s : Machine) (g offset f : ℕ) (b : BitVec 8) (hk : k < 4096) :
    (s.setByte g offset b).byte f k = if f = g ∧ k = offset % 4096 then b else s.byte f k := by
  have hindex : Fin.ofNat 512 (k / 8) = Fin.ofNat 512 (offset / 8) ↔
      k / 8 = offset % 4096 / 8 := by
    rw [Fin.ext_iff]
    simp only [Fin.ofNat]
    omega
  simp only [Machine.byte, Machine.setByte, Machine.writeEntry_mem]
  split_ifs with hword heq heq
  · refine BitVec.eq_of_getLsbD_eq fun j hj => ?_
    rw [BitVec.getLsbD_setWidth, BitVec.getLsbD_ushiftRight, getLsbD_replaceByte _ _ (by omega) hj,
      if_pos (by omega)]
    simp [hj]
  · obtain ⟨rfl, hword⟩ := hword
    refine BitVec.eq_of_getLsbD_eq fun j hj => ?_
    rw [BitVec.getLsbD_setWidth, BitVec.getLsbD_ushiftRight, getLsbD_replaceByte _ _ (by omega) hj,
      if_neg (by omega), ← hword, BitVec.getLsbD_setWidth, BitVec.getLsbD_ushiftRight]
  · exact absurd ⟨heq.1, hindex.mpr (by omega)⟩ hword
  · rfl

/-! ## After a history -/

variable {w w' : Others} {op : FrameOp}

/-- What another address space cannot touch: frames that are in use and not its own. -/
def Untouched (w w' : Others) : Prop :=
  ∀ f, w.machine.free f = false → w.owned f = false →
    w'.machine.free f = false ∧ w'.owned f = false ∧ w'.machine.mem f = w.machine.mem f

section

variable (pl : Platform)

theorem untouched_step (w : Others) (op : FrameOp) : Untouched w (othersStep pl w op) := by
  intro f hf ho
  have hne : ∀ g, w.owned g = true → f ≠ g := by
    rintro g hown rfl
    rw [hown] at ho
    cases ho
  cases op with
  | alloc =>
    simp only [othersStep]
    rcases pfaAllocFrame_spec pl w.machine with ⟨free, halloc, hkeep⟩ | ⟨c, hc, -, hfree, halloc⟩
    · rw [halloc]
      exact ⟨hkeep f hf, ho, rfl⟩
    · rw [halloc]
      cases c with
      | zero => exact absurd rfl hc
      | succ n =>
        refine ⟨update_used hf _, ?_, rfl⟩
        exact (update_of_ne (Machine.ne_of_free hf hfree) _ _).trans ho
  | free g =>
    simp only [othersStep]
    split_ifs with hown
    · have ho' := (update_of_ne (hne g hown) false w.owned).trans ho
      unfold pfaFreeFrame
      split_ifs
      · exact ⟨hf, ho', rfl⟩
      · exact ⟨(update_of_ne (hne g hown) _ _).trans hf, ho', rfl⟩
    · exact ⟨hf, ho, rfl⟩
  | store g offset b =>
    simp only [othersStep]
    split_ifs with hown
    · exact ⟨hf, ho, update_of_ne (hne g hown) _ _⟩
    · exact ⟨hf, ho, rfl⟩

theorem untouched_history (w : Others) (ops : List FrameOp) : Untouched w (afterHistory pl w ops) :=
  run_preserves (I := fun w' => Untouched w w') (fun w' op h f hf ho => by
    obtain ⟨hf', ho', hmem⟩ := h f hf ho
    rw [← hmem]
    exact untouched_step pl w' op f hf' ho') fun _ hf ho => ⟨hf, ho, rfl⟩

/-- The bitmap and the owners are the same. -/
def SameFrames (w w' : Others) : Prop := w'.machine.free = w.machine.free ∧ w'.owned = w.owned

/-- The stored byte changes neither the bitmap nor the owners. -/
theorem sameFrames_step (h : SameFrames w w') (op : FrameOp) :
    SameFrames (othersStep pl w op) (othersStep pl w' op.erase) := by
  obtain ⟨hfree, howned⟩ := h
  cases op with
  | alloc =>
    simp only [othersStep, FrameOp.erase]
    obtain ⟨hsnd, hfst⟩ := pfaAllocFrame_congr pl hfree
    generalize pfaAllocFrame pl w.machine = x at hsnd hfst
    generalize pfaAllocFrame pl w'.machine = y at hsnd hfst
    obtain ⟨s₁, c⟩ := x
    obtain ⟨s₂, c'⟩ := y
    obtain rfl : c' = c := hsnd
    cases c' with
    | zero => exact ⟨hfst, howned⟩
    | succ n => exact ⟨hfst, by simp only [howned]⟩
  | free g =>
    simp only [othersStep, FrameOp.erase, howned]
    split_ifs with hown
    · refine ⟨?_, rfl⟩
      unfold pfaFreeFrame
      split_ifs
      · exact hfree
      · simp only [hfree]
    · exact ⟨hfree, howned⟩
  | store g offset b =>
    simp only [othersStep, FrameOp.erase, howned]
    split_ifs with hown
    · exact ⟨hfree, rfl⟩
    · exact ⟨hfree, howned⟩

theorem sameFrames_erase (ops : List FrameOp) (h : SameFrames w w') :
    SameFrames (afterHistory pl w ops) (afterHistory pl w' (ops.map FrameOp.erase)) := by
  induction ops generalizing w w' with
  | nil => exact h
  | cons op ops ih => exact ih (sameFrames_step pl h op)

/-- Histories that differ only in the bytes stored leave the same bitmap. -/
theorem free_afterHistory_eq (w : Others) {ops ops' : List FrameOp}
    (hsame : ops.map FrameOp.erase = ops'.map FrameOp.erase) :
    (afterHistory pl w ops').machine.free = (afterHistory pl w ops).machine.free := by
  have h := (sameFrames_erase pl ops (w := w) ⟨rfl, rfl⟩).1
  have h' := (sameFrames_erase pl ops' (w := w) ⟨rfl, rfl⟩).1
  rw [← h', ← h, hsame]

/-- An operation changes the bytes that it stores. -/
theorem byte_othersStep (w : Others) (op : FrameOp) (f : ℕ) (hk : k < 4096) :
    (othersStep pl w op).machine.byte f k = (op.stored w f k).getD (w.machine.byte f k) := by
  cases op with
  | alloc =>
    simp only [othersStep]
    rcases pfaAllocFrame_spec pl w.machine with ⟨free, halloc, -⟩ | ⟨_ | c, -, -, -, halloc⟩
    all_goals
      rw [halloc]
      rfl
  | free g =>
    simp only [othersStep, pfaFreeFrame]
    split_ifs <;> rfl
  | store g offset b =>
    simp only [othersStep, FrameOp.stored]
    by_cases hown : w.owned g
    · simp only [hown, if_true, w.machine.byte_setByte g offset f b hk, true_and]
      split_ifs <;> rfl
    · simp only [hown, Bool.false_eq_true, if_false, false_and]
      rfl

/-- A frame holds what a history stored there last. -/
theorem byte_afterHistory (w : Others) (ops : List FrameOp) (f : ℕ) (hk : k < 4096) :
    (afterHistory pl w ops).machine.byte f k =
      (lastStored pl f k w ops).getD (w.machine.byte f k) := by
  induction ops generalizing w with
  | nil => rfl
  | cons op ops ih =>
    refine (ih (othersStep pl w op)).trans ?_
    rw [byte_othersStep pl w op f hk, lastStored, Option.getD_or]

/-- Where a history stores does not depend on the bytes. -/
theorem lastStored_erase (f k : ℕ) (ops : List FrameOp) (h : SameFrames w w') :
    (lastStored pl f k w' (ops.map FrameOp.erase)).isSome = (lastStored pl f k w ops).isSome := by
  induction ops generalizing w w' with
  | nil => rfl
  | cons op ops ih =>
    have hstored : (op.erase.stored w' f k).isSome = (op.stored w f k).isSome := by
      cases op with
      | alloc => rfl
      | free g => rfl
      | store g offset b =>
        simp only [FrameOp.erase, FrameOp.stored, h.2]
        split_ifs <;> rfl
    simp only [List.map_cons, lastStored, Option.isSome_or, hstored, ih (sameFrames_step pl h op)]

end

/-- The tables of the process are as they were before the history. -/
theorem OwnTables.pathOk (h : OwnTables w cr3 va) (hun : Untouched w w') :
    pathTables w'.machine (indicesOf va) cr3 = pathTables w.machine (indicesOf va) cr3 ∧
      PathOk w'.machine (indicesOf va) cr3 := by
  have hpath : PathOk w.machine (indicesOf va) cr3 := ⟨h.nodup, h.used, h.noLarge⟩
  exact hpath.congr (fun f hf => (hun f (h.used f hf) (h.apart f hf)).2.2)
    fun f hf => (hun f (h.used f hf) (h.apart f hf)).1

/-- The handler succeeds alike in two machines with the same bitmap and the same tables. -/
theorem PathOk.handler_congr (hpath : PathOk s (indicesOf va) cr3) (hfree : s'.free = s.free)
    (hmem : ∀ f ∈ pathTables s (indicesOf va) cr3, s'.mem f = s.mem f)
    (h : (pageNotPresentHandler pl s cr3 va).2 = 0) :
    (pageNotPresentHandler pl s' cr3 va).2 = 0 := by
  obtain ⟨haddr, hcr3, hc, ht⟩ := pageNotPresentHandler_eq_zero.mp h
  obtain ⟨hsnd, hfst⟩ := pfaAllocFrame_congr pl hfree
  refine pageNotPresentHandler_eq_zero.mpr ⟨haddr, hcr3, by rwa [hsnd], ?_⟩
  have hkept := pfaAllocFrame_mem pl s
  have hkept' := pfaAllocFrame_mem pl s'
  obtain ⟨htables, hpath₀⟩ := hpath.congr (fun f _ => congrFun hkept f)
    fun f hf => pfaAllocFrame_used pl (hpath.used f hf)
  rw [hpath₀.ensurePath_congr (by decide) (fun f hf => ?_) hfst]
  · exact ht
  · rw [htables] at hf
    rw [hkept, hkept', hmem f hf]

/-- A frame that is handed out is the lowest free one. -/
theorem isLeast_pfaAllocFrame (pl : Platform) (hc : (pfaAllocFrame pl s).2 ≠ 0) :
    IsLeast {f | f < pl.bitmapBits ∧ s.free f = true} (pfaAllocFrame pl s).2 := by
  unfold pfaAllocFrame at hc ⊢
  cases hfind : findFree s.free pl.bitmapBits 0 with
  | none => simp [hfind] at hc
  | some c =>
    obtain ⟨hfree, hlt⟩ := findFree_eq_some hfind
    refine ⟨⟨by simpa using hlt, hfree⟩, fun g hg => ?_⟩
    by_contra hlow
    have hused := findFree_least hfind g.zero_le (Nat.not_le.mp hlow)
    rw [hg.2] at hused
    cases hused

/-- Disclosure of stale memory. After two histories of the other address spaces that differ only
in the bytes they stored, a page that the handler maps in one is mapped in the other. The
process reads the same bytes from it if and only if the bytes that the two histories stored last in
the lowest free frame are the same. -/
theorem newPage_bytes_eq_iff (pl : Platform) (w : Others) (cr3 va : ℕ) (hown : OwnTables w cr3 va)
    (ops ops' : List FrameOp) (hsame : ops.map FrameOp.erase = ops'.map FrameOp.erase)
    (hmapped : (pageNotPresentHandler pl (afterHistory pl w ops).machine cr3 va).2 = 0) :
    (pageNotPresentHandler pl (afterHistory pl w ops').machine cr3 va).2 = 0 ∧
      ((∀ k < 4096,
          userLoad (pageNotPresentHandler pl (afterHistory pl w ops).machine cr3 va).1 cr3
              (va / 4096 * 4096 + k) =
            userLoad (pageNotPresentHandler pl (afterHistory pl w ops').machine cr3 va).1 cr3
              (va / 4096 * 4096 + k)) ↔
        ∀ f, IsLeast {f | f < pl.bitmapBits ∧ (afterHistory pl w ops).machine.free f = true} f →
          ∀ k < 4096, lastStored pl f k w ops = lastStored pl f k w ops') := by
  have hun := untouched_history pl w ops
  have hun' := untouched_history pl w ops'
  have hfree := free_afterHistory_eq pl w hsame
  obtain ⟨htables, hpath⟩ := hown.pathOk hun
  obtain ⟨-, hpath'⟩ := hown.pathOk hun'
  have hmapped' := hpath.handler_congr hfree (fun f hf => by
    rw [htables] at hf
    rw [(hun f (hown.used f hf) (hown.apart f hf)).2.2,
      (hun' f (hown.used f hf) (hown.apart f hf)).2.2]) hmapped
  refine ⟨hmapped', ?_⟩
  have hframe := (pfaAllocFrame_congr pl hfree).1
  have hleast := isLeast_pfaAllocFrame pl (pageNotPresentHandler_eq_zero.mp hmapped).2.2.1
  set c := (pfaAllocFrame pl (afterHistory pl w ops).machine).2
  -- The byte at an offset is the last one stored there in both histories, or in neither.
  have hbyte : ∀ k < 4096, ((afterHistory pl w ops).machine.byte c k =
      (afterHistory pl w ops').machine.byte c k ↔
        lastStored pl c k w ops = lastStored pl c k w ops') := by
    intro k hk
    have hsome : (lastStored pl c k w ops).isSome = (lastStored pl c k w ops').isSome := by
      rw [← lastStored_erase pl c k ops ⟨rfl, rfl⟩, hsame, lastStored_erase pl c k ops' ⟨rfl, rfl⟩]
    rw [byte_afterHistory pl w ops c hk, byte_afterHistory pl w ops' c hk]
    revert hsome
    cases lastStored pl c k w ops <;> cases lastStored pl c k w ops' <;> simp
  constructor
  · intro hload f hf k hk
    obtain rfl := hleast.unique hf
    have hk' := hload k hk
    rw [hpath.load hmapped hk, hpath'.load hmapped' hk, hframe] at hk'
    exact (hbyte k hk).mp (Option.some.inj hk')
  · intro hlast k hk
    rw [hpath.load hmapped hk, hpath'.load hmapped' hk, hframe, (hbyte k hk).mpr (hlast c hleast k hk)]

/-- Eight frames: the first is not used and the second is an empty PML4. -/
def smallPlatform : Platform where
  kernelEnd := 0
  bitmapBits := 8
  maxFrames := 8
  bitmapBits_le := by decide
  maxFrames_le := by decide

/-- The process has the PML4 in frame 1, and all frames from 2 on are free. -/
def freshProcess : Others where
  machine := ⟨fun _ _ => 0, fun f => decide (2 ≤ f), fun _ => 0⟩
  owned := fun _ => false

/-- Another address space gets a frame, stores a byte to it and frees it. -/
def storeAndFree (b : BitVec 8) : List FrameOp := [.alloc, .store 2 0 b, .free 2]

theorem ownTables_freshProcess : OwnTables freshProcess 1 0x400000 where
  nodup := by decide
  used := by decide
  apart := by decide
  noLarge := by
    intro hpresent
    exact absurd hpresent (by decide)

/-- What the process reads in a page that it touches after the history. -/
def loadedAfter (history : List FrameOp) (va : ℕ) : Option (BitVec 8) :=
  userLoad (pageNotPresentHandler smallPlatform
    (afterHistory smallPlatform freshProcess history).machine 1 0x400000).1 1 va

/-- Another address space gets two frames, stores a byte to both, overwrites that of the first and
frees it. -/
def overwriteAndFree (b : BitVec 8) : List FrameOp :=
  [.alloc, .alloc, .store 3 0 b, .store 2 0 b, .store 2 4096 7, .free 2]

/-- A byte that was overwritten, or that is in a frame still in use, is not read. -/
theorem newPage_bytes_eq_iff_overwritten :
    (overwriteAndFree 5).map FrameOp.erase = (overwriteAndFree 6).map FrameOp.erase ∧ ∀ k < 4096,
      loadedAfter (overwriteAndFree 5) (0x400000 / 4096 * 4096 + k) =
        loadedAfter (overwriteAndFree 6) (0x400000 / 4096 * 4096 + k) := by
  refine ⟨rfl, (newPage_bytes_eq_iff smallPlatform freshProcess 1 0x400000 ownTables_freshProcess
    (overwriteAndFree 5) (overwriteAndFree 6) rfl (by decide)).2.mpr fun f hf k hk => ?_⟩
  have hlast : ∀ b, lastStored smallPlatform 2 k freshProcess (overwriteAndFree b) =
      if k = 0 then some 7 else none := by
    intro b
    by_cases hk0 : k = 0
    · subst hk0
      rfl
    · simp [lastStored, overwriteAndFree, FrameOp.stored, hk0]
  have hused : ∀ f < 2, (afterHistory smallPlatform freshProcess
      (overwriteAndFree 5)).machine.free f = false := by decide
  obtain rfl : f = 2 := by
    refine hf.unique ⟨by decide, fun g hg => Nat.le_of_not_lt fun hlow => ?_⟩
    cases hg.2.symm.trans (hused g hlow)
  rw [hlast, hlast]

/-- The process reads the byte that the other address space stored. -/
theorem newPage_bytes_disclosed :
    (storeAndFree 5).map FrameOp.erase = (storeAndFree 6).map FrameOp.erase ∧
      loadedAfter (storeAndFree 5) 0x400000 = some 5 ∧
      loadedAfter (storeAndFree 6) 0x400000 = some 6 :=
  ⟨rfl, by decide, by decide⟩

end Tomahawk.Memory
