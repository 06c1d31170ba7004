import Tomahawk.Memory.CowClone
import Tomahawk.Lib.Run

/-!
# Isolation of address spaces

What the loads and stores of user code do under the invariant, and from it that a store in
one address space is not seen in another.
-/

namespace Tomahawk.Memory

open Function Tomahawk.Lib

variable {pl : Platform} {s s' : Machine} {roots : List ℕ} {r r' va f : ℕ} {t pt f : ℕ}
  {i : Fin 512} {e : Word} {write : Bool}

/-- The path of the PT for an address. -/
def ptPath (va : ℕ) : Path := [pdIndex va, pdptIndex va, pml4Index va]

/-- Addresses of user code are in the lower half. -/
theorem lower_pml4Index (hva : va < 2 ^ 47) : Lower [pml4Index va] := by
  have hlt : va / 2 ^ 39 < 256 := by omega
  simp only [Lower, List.getLast?_singleton, Option.mem_def, Option.some.injEq, forall_eq',
    pml4Index, Fin.ofNat]
  omega

theorem isTable_root (hr : r ∈ roots) : IsTable s roots r [] r :=
  ⟨hr, by simp, lower_nil, rfl⟩

/-- A present entry leads to the next table. -/
theorem IsTable.next {p : Path} (ht : IsTable s roots r p t) (hp : p.length ≤ 2)
    (hlow : Lower (i :: p)) (hpresent : (s.mem t i).present = true) :
    IsTable s roots r (i :: p) (s.mem t i).frame := by
  refine ⟨ht.root, ?_, hlow, tableAt_cons_eq_some.mpr ⟨t, ht.eq, hpresent, rfl⟩⟩
  rw [List.length_cons]
  omega

theorem Word.present_of_permits (h : e.permits write = true) :
    e.present = true := by
  simp only [Word.permits, Bool.and_eq_true] at h
  exact h.1.1

/-- The walk reads only entries of the lower half. -/
theorem userWalk_of_same (hsame : SameEntries s s' [r]) (hva : va < 2 ^ 47) (write : Bool) :
    userWalk s' r va write = userWalk s r va write := by
  have hlow := lower_pml4Index hva
  have ht4 : IsTable s [r] r [] r := isTable_root (by simp)
  have hlow3 := hlow.cons (by simp) (pdptIndex va)
  have hlow2 := hlow3.cons (by simp) (pdIndex va)
  have hpass := fun {e} => @Word.present_of_permits e write
  have ht3 := fun h4 => ht4.next (by simp) hlow (hpass h4)
  have ht2 := fun h4 h3 => (ht3 h4).next (by simp) hlow3 (hpass h3)
  have ht1 := fun h4 h3 h2 => (ht2 h4 h3).next (by simp) hlow2 (hpass h2)
  have hpdpt := fun h4 => hsame r _ _ _ (ht3 h4) hlow3
  have hpd := fun h4 h3 => hsame r _ _ _ (ht2 h4 h3) hlow2
  have hpt := fun h4 h3 h2 => hsame r _ _ _ (ht1 h4 h3 h2) (hlow2.cons (by simp) (ptIndex va))
  simp only [userWalk, hsame r [] r _ ht4 hlow]
  split_ifs <;> simp_all

/-- A walk that succeeds goes through the PT for the address. -/
theorem Tables.userWalk_eq_some (htab : Tables s roots) (hr : r ∈ roots) (hva : va < 2 ^ 47)
    {x : ℕ × ℕ} (h : userWalk s r va write = some x) :
    ∃ pt, IsTable s roots r (ptPath va) pt ∧ (s.mem pt (ptIndex va)).permits write = true ∧
      x = ((s.mem pt (ptIndex va)).frame, va % 4096) := by
  have hlow := lower_pml4Index hva
  have ht4 : IsTable s roots r [] r := isTable_root hr
  unfold userWalk at h
  dsimp only at h
  split_ifs at h with h4 h3 hps3 h2 hps2 h1 <;> simp only [Bool.not_eq_true', Bool.not_eq_false] at *
  all_goals
    have ht3 := ht4.next (by simp) hlow (Word.present_of_permits h4)
    have hlow3 := hlow.cons (by simp) (pdptIndex va)
    have hpresent3 := Word.present_of_permits h3
  · rw [htab.noPs ht3 (by simp) (by simp) _ hpresent3] at hps3
    cases hps3
  all_goals
    have ht2 := ht3.next (by simp) hlow3 hpresent3
    have hlow2 := hlow3.cons (by simp) (pdIndex va)
    have hpresent2 := Word.present_of_permits h2
  · rw [htab.noPs ht2 (by simp) (by simp) _ hpresent2] at hps2
    cases hps2
  · exact ⟨_, ht2.next (by simp) hlow2 hpresent2, h1, (Option.some.inj h).symm⟩

/-- The entry that `paging_get_pte` finds is in the PT for the address. -/
theorem pagingGetPte_eq_some (hr : r ∈ roots) (hva : va < 2 ^ 47) {x : ℕ × Fin 512}
    (h : pagingGetPte s r va = some x) :
    ∃ pt, IsTable s roots r (ptPath va) pt ∧ x = (pt, ptIndex va) := by
  have hlow := lower_pml4Index hva
  have ht4 : IsTable s roots r [] r := isTable_root hr
  unfold pagingGetPte at h
  dsimp only at h
  split_ifs at h with h0 h4 h3 hps3 h2 hps2
  simp only [Bool.not_eq_true', Bool.not_eq_false] at h4 h3 h2
  have ht3 := ht4.next (by simp) hlow h4
  have hlow3 := hlow.cons (by simp) (pdptIndex va)
  have ht2 := ht3.next (by simp) hlow3 h3
  have hlow2 := hlow3.cons (by simp) (pdIndex va)
  exact ⟨_, ht2.next (by simp) hlow2 h2, (Option.some.inj h).symm⟩

/-- The user page for an address is the one of the entry in its PT. -/
theorem IsTable.userPage_eq (ht : IsTable s roots r (ptPath va) pt) (i : Fin 512) :
    userPage s roots (r, i :: ptPath va) = pageOf (s.mem pt i) := by
  rw [userPage, if_pos ⟨ht.root, by simp [ptPath], ht.lower.cons (by simp [ptPath]) i⟩,
    entryAt_cons_eq_some.mpr ⟨pt, ht.eq, rfl⟩, Option.bind_some]

theorem pageOf_of_permits (h : e.permits write = true) :
    pageOf e = some ⟨e.frame, e.rw⟩ ∧ (write = true → e.rw = true) := by
  simp only [Word.permits, Bool.and_eq_true, Bool.or_eq_true, Bool.not_eq_true'] at h
  refine ⟨by simp [pageOf, h.1.1, h.1.2], ?_⟩
  rintro rfl
  simpa using h.2

/-! ## Steps of one address space -/

/-- A step of the address space `r` that the others do not see. -/
structure Private (pl : Platform) (s s' : Machine) (roots : List ℕ) (r : ℕ) : Prop where
  inv : Inv pl s' roots
  load : ∀ r' ∈ roots, r' ≠ r → ∀ va < 2 ^ 47, userLoad s' r' va = userLoad s r' va

theorem Private.refl (h : Inv pl s roots) (r : ℕ) : Private pl s s roots r :=
  ⟨h, fun _ _ _ _ _ => rfl⟩

theorem Private.trans {s'' : Machine} (h : Private pl s s' roots r)
    (h' : Private pl s' s'' roots r) : Private pl s s'' roots r :=
  ⟨h'.inv, fun r' hr' hne va hva => (h'.load r' hr' hne va hva).trans (h.load r' hr' hne va hva)⟩

theorem SameEntries.singleton (h : SameEntries s s' roots) (hr : r ∈ roots) :
    SameEntries s s' [r] := by
  intro r' p t j ht hlow
  obtain rfl := List.mem_singleton.mp ht.root
  exact h r' p t j ⟨hr, ht.length, ht.lower, ht.eq⟩ hlow

/-- A load depends on the entries of its address space and the frames of its user pages. -/
theorem Tables.userLoad_congr (htab : Tables s roots) (hr : r ∈ roots) (hva : va < 2 ^ 47)
    (hsame : SameEntries s s' [r])
    (hdata : ∀ q pg, userPage s roots (r, q) = some pg → s'.mem pg.frame = s.mem pg.frame) :
    userLoad s' r va = userLoad s r va := by
  unfold userLoad
  rw [userWalk_of_same hsame hva]
  cases hwalk : userWalk s r va false with
  | none => rfl
  | some x =>
    obtain ⟨pt, ht, hpermits, rfl⟩ := htab.userWalk_eq_some hr hva hwalk
    have hpage := (ht.userPage_eq (ptIndex va)).trans (pageOf_of_permits hpermits).1
    simp only [Option.map_some, Machine.byte, hdata _ _ hpage]

section

variable (h : Inv pl s roots)
include h

/-- A store that the walk permits goes to a frame that no other address space sees. -/
theorem Inv.tryStore (hr : r ∈ roots) (hva : va < 2 ^ 47) (b : BitVec 8) :
    Private pl s (Memory.tryStore s r va b) roots r := by
  unfold Memory.tryStore
  cases hwalk : userWalk s r va true with
  | none => exact Private.refl h r
  | some x =>
    obtain ⟨pt, ht, hpermits, rfl⟩ := h.tables.userWalk_eq_some hr hva hwalk
    set f := (s.mem pt (ptIndex va)).frame with hf
    obtain ⟨hpage, hrw⟩ := pageOf_of_permits hpermits
    have hpage := (ht.userPage_eq (ptIndex va)).trans hpage
    have hmem : ∀ t ≠ f, (s.setByte f (va % 4096) b).mem t = s.mem t :=
      fun t ht => update_of_ne ht _ _
    have hsame : SameEntries s (s.setByte f (va % 4096) b) roots :=
      sameEntries_of_notTable (h.tables.data hpage).2 hmem
    refine ⟨h.of_same hsame (fun _ hf => hf) fun _ => le_rfl, fun r' hr' hne va' hva' => ?_⟩
    refine h.tables.userLoad_congr hr' hva' (hsame.singleton hr') fun q pg hpg => hmem _ ?_
    have hk : (r', q) ≠ (r, ptIndex va :: ptPath va) := fun heq => hne (Prod.mk.inj heq).1
    exact h.isolated.frame_ne hk hpage (hrw rfl) hpg

/-- Writing an entry of a PT of `r` is private, if no other page has the frame of its page.
Before that, in `s'`, frames without a user page can change, and the count of the frame that
the entry had. -/
theorem Inv.writePte {pg pg' : Page ℕ} (ht : IsTable s roots r (ptPath va) pt)
    (hsame : SameEntries s s' roots) (hfree : ∀ f, s.free f = false → s'.free f = false)
    (hmem : ∀ {k q}, userPage s roots k = some q → s'.mem q.frame = s.mem q.frame)
    (hshared : ∀ {k q}, userPage s roots k = some q → q.frame ≠ pg.frame →
      refcountIsShared pl s q.frame = true → refcountIsShared pl s' q.frame = true)
    (hold : pageOf (s.mem pt i) = some pg) (hnew : pageOf e = some pg')
    (halloc : s'.free pg'.frame = false) (hnot : ∀ r p, ¬ IsTable s roots r p pg'.frame)
    (hfresh : ∀ {k q}, k ≠ (r, i :: ptPath va) → userPage s roots k = some q →
      q.frame ≠ pg'.frame) :
    Private pl s (s'.writeEntry pt i e) roots r := by
  have hp : (ptPath va).length = 3 := rfl
  have htab := h.tables.of_same hsame hfree
  have ht' := (isTable_of_same hsame).mpr ht
  refine ⟨⟨htab.writeLeaf ht' hp i e fun q hq => ?_, ?_⟩, fun r' hr' hne va' hva' => ?_⟩
  · obtain rfl := Option.some.inj (hnew.symm.trans hq)
    exact ⟨halloc, fun r p hp => hnot r p ((isTable_of_same hsame).mp hp)⟩
  · rw [userPage_writeLeaf htab ht' hp i e, hnew, userPage_of_same hsame]
    exact h.isolated.replace ((ht.userPage_eq i).trans hold) hfresh hshared
  · refine h.tables.userLoad_congr hr' hva' (fun r'' p t j htable hlow => ?_) fun q pg hpg => ?_
    · obtain rfl := List.mem_singleton.mp htable.root
      have htable : IsTable s roots r'' p t := ⟨hr', htable.length, htable.lower, htable.eq⟩
      rw [← hsame r'' p t j htable hlow]
      refine Machine.writeEntry_mem_of_ne ?_
      rintro ⟨rfl, -⟩
      exact hne (h.tables.inj htable ht).1
    · rw [← hmem hpg]
      refine update_of_ne ?_ _ _
      intro heq
      exact (h.tables.data hpg).2 _ _ (heq ▸ ht)

/-- The handler of a copy-on-write fault on a user page. -/
theorem Inv.pagingHandleCowFault (hr : r ∈ roots) (hva : va < 2 ^ 47)
    (hread : (userWalk s r va false).isSome) :
    Private pl s (Memory.pagingHandleCowFault pl s r va).1 roots r := by
  obtain ⟨x, hwalk⟩ := Option.isSome_iff_exists.mp hread
  obtain ⟨pt, ht, hpermits, -⟩ := h.tables.userWalk_eq_some hr hva hwalk
  unfold Memory.pagingHandleCowFault
  cases hpte : pagingGetPte s r va with
  | none => exact Private.refl h r
  | some y =>
    obtain ⟨pt', ht', rfl⟩ := pagingGetPte_eq_some hr hva hpte
    obtain rfl : pt' = pt := Option.some.inj (ht'.eq.symm.trans ht.eq)
    dsimp only
    set pte := s.mem pt' (ptIndex va) with hpte'
    have hpage := (pageOf_of_permits hpermits).1
    have huser := (ht.userPage_eq (ptIndex va)).trans hpage
    split_ifs with hpresent hcow hshared
    · exact Private.refl h r
    · exact Private.refl h r
    · rcases pfaAllocFrame_spec pl s with ⟨free, halloc, hfree⟩ | ⟨c, hc, hbits, hcfree, halloc⟩
      · simp only [halloc]
        have hinv : Inv pl { s with free := free } roots :=
          h.of_same (fun _ _ _ _ _ _ => rfl) hfree fun _ => le_rfl
        refine ⟨hinv, fun r' hr' _ va' hva' => ?_⟩
        exact h.tables.userLoad_congr hr' hva' (fun _ _ _ _ _ _ => rfl) fun _ _ _ => rfl
      · cases c with
        | zero => exact absurd rfl hc
        | succ n =>
        have hnot : ∀ r p, ¬ IsTable s roots r p (n + 1) :=
          fun r p htable => Machine.ne_of_free (h.tables.alloc htable) hcfree rfl
        have hfresh : ∀ {k q}, userPage s roots k = some q → q.frame ≠ n + 1 :=
          fun hq => Machine.ne_of_free (h.tables.data hq).1 hcfree
        simp only [halloc]
        set s₁ := copyPage { s with free := update s.free (n + 1) false }
          pte.frame (n + 1) with hs₁
        have hmem : ∀ t ≠ n + 1, s₁.mem t = s.mem t := fun t ht => update_of_ne ht _ _
        obtain ⟨hdec, hleft⟩ := refcountDec_of_shared (s := s₁) hshared
        obtain ⟨refs, hset, hrefs⟩ := refcountSet_spec pl { s₁ with
          refs := update s₁.refs pte.frame (s₁.refs pte.frame - 1) } (n + 1) 1
        simp only [hdec, if_neg hleft, hset]
        have hpt : s₁.mem pt' (ptIndex va) = pte := by
          rw [hmem]
          rintro rfl
          exact hnot _ _ ht
        rw [hpt]
        have hnew : pageOf (clearCow (withFrame (n + 1) pte)) = some ⟨n + 1, true⟩ := by
          have hlt : n + 1 < 2 ^ 40 := by
            have := pl.bitmapBits_le
            omega
          simp only [pageOf, present_clearCow, present_withFrame, user_clearCow, user_withFrame,
            frame_clearCow, frame_withFrame hlt, rw_clearCow] at hpage ⊢
          split_ifs at hpage ⊢
          rfl
        refine h.writePte ht (sameEntries_of_notTable hnot hmem) (fun f hf => update_used hf _)
          (fun hq => hmem _ (hfresh hq)) (fun {k q} hq hne hf => ?_) hpage hnew
          (update_self _ _ _) hnot fun _ hq => hfresh hq
        -- Only the counts of the old and the new frame change.
        have hcount : refs q.frame = s.refs q.frame :=
          (hrefs _ (hfresh hq)).trans (update_of_ne hne _ _)
        rw [refcountIsShared_iff] at hf ⊢
        exact ⟨hf.1, lt_of_lt_of_eq hf.2 hcount.symm⟩
    · -- No other key has the frame, since it does not count as shared.
      have hnew : pageOf (clearCow pte) = some ⟨pte.frame, true⟩ := by
        simpa [pageOf, frame_clearCow] using hpage
      refine h.writePte ht (fun _ _ _ _ _ _ => rfl) (fun _ hf => hf) (fun _ => rfl)
        (fun _ _ hf => hf) hpage hnew (h.tables.data huser).1
        (h.tables.data huser).2 fun hk hq heq => hshared ?_
      exact (h.isolated.share hk.symm huser hq heq.symm).2

/-- A store of user code is not seen in the other address spaces. -/
theorem Inv.userStore (hr : r ∈ roots) (hva : va < 2 ^ 47) (b : BitVec 8) :
    Private pl s (Memory.userStore pl s r va b) roots r := by
  unfold Memory.userStore
  split_ifs with hread hwrite
  · exact Private.refl h r
  · exact h.tryStore hr hva b
  · have hread : (userWalk s r va false).isSome := by
      simpa [Option.isNone_iff_eq_none, Option.isSome_iff_ne_none] using hread
    cases hpte : pagingGetPte s r va with
    | none => exact Private.refl h r
    | some x =>
      dsimp only
      split_ifs with hcow
      · have hfault := h.pagingHandleCowFault hr hva hread
        cases hres : Memory.pagingHandleCowFault pl s r va with
        | mk s₁ code =>
          rw [hres] at hfault
          split
          · rename_i s₂ heq
            cases heq
            exact hfault.trans (hfault.inv.tryStore hr hva b)
          · rename_i s₂ _ _ heq
            cases heq
            exact hfault
      · exact Private.refl h r

end

/-! ## Runs -/

/-- The machine and the roots of the address spaces. -/
structure System where
  machine : Machine
  spaces : List ℕ

/-- A fork of an address space, or a store of user code in one. -/
inductive SpaceOp where
  | clone (r : ℕ)
  | store (r va : ℕ) (b : BitVec 8)

/-- One operation. A clone that fails gives no address space. -/
def System.step (pl : Platform) (y : System) : SpaceOp → System
  | .clone r =>
    if r ∈ y.spaces then
      match pagingCloneCow pl y.machine r with
      | (s, 0) => ⟨s, y.spaces⟩
      | (s, d) => ⟨s, y.spaces ++ [d]⟩
    else y
  | .store r va b =>
    if r ∈ y.spaces ∧ va < 2 ^ 47 then ⟨userStore pl y.machine r va b, y.spaces⟩ else y

/-- The condition on a clone: the user pages of its source can all be shared. -/
def System.Meets (pl : Platform) (y : System) : SpaceOp → Prop
  | .clone r => r ∈ y.spaces → CanClone pl y.machine r
  | .store _ _ _ => True

/-- One address space, whose user pages are writable and in distinct frames. -/
structure Start (y : System) (root : ℕ) : Prop where
  spaces : y.spaces = [root]
  tables : Tables y.machine [root]
  writable : ∀ k pg, userPage y.machine [root] k = some pg → pg.writable = true
  distinct : ∀ k k' pg pg', k ≠ k' → userPage y.machine [root] k = some pg →
    userPage y.machine [root] k' = some pg' → pg.frame ≠ pg'.frame

variable {y : System}

theorem Start.inv {root : ℕ} (h : Start y root) : Inv pl y.machine y.spaces := by
  rw [h.spaces]
  refine ⟨h.tables, fun hk hp hp' heq => absurd heq (h.distinct _ _ _ _ hk hp hp'), ?_⟩
  intro k k' k'' p p' p'' hp hp' _ heq _
  by_contra hne
  exact h.distinct _ _ _ _ (fun hkk => hne (.inl hkk)) hp hp' heq

/-- One operation that meets the condition keeps the invariant. -/
theorem Inv.step (op : SpaceOp) (h : Inv pl y.machine y.spaces) (hmeet : System.Meets pl y op) :
    Inv pl (System.step pl y op).machine (System.step pl y op).spaces := by
  cases op with
  | clone r =>
    simp only [System.step]
    split_ifs with hr
    · obtain ⟨hinv, hnew⟩ := h.pagingCloneCow hr (hmeet hr)
      cases hres : Memory.pagingCloneCow pl y.machine r with
      | mk s d =>
        rw [hres] at hinv hnew
        cases d with
        | zero => exact hinv
        | succ d => exact hnew (Nat.succ_ne_zero d)
    · exact h
  | store r va b =>
    simp only [System.step]
    split_ifs with hr
    · exact (h.userStore hr.1 hr.2 b).inv
    · exact h

/-- In every run whose clones all meet the condition, a store in one address space leaves
what every other address space reads at every user address. -/
theorem fork_isolated (pl : Platform) (start : System) (root : ℕ) (hstart : Start start root)
    (ops : List SpaceOp) (r va : ℕ) (b : BitVec 8)
    (hmeets : Guarded (System.step pl) (System.Meets pl) start (ops ++ [.store r va b])) (r' : ℕ)
    (hr' : r' ∈ (run (System.step pl) start ops).spaces) (hne : r' ≠ r) (va' : ℕ)
    (hva' : va' < 2 ^ 47) :
    userLoad (run (System.step pl) start (ops ++ [.store r va b])).machine r' va' =
      userLoad (run (System.step pl) start ops).machine r' va' := by
  have hinv : Inv pl (run (System.step pl) start ops).machine
      (run (System.step pl) start ops).spaces :=
    run_invariant (I := fun y => Inv pl y.machine y.spaces)
      (fun _ op hy hop => Inv.step op hy hop) hstart.inv (guarded_append.mp hmeets).1
  rw [run_append]
  set y := run (System.step pl) start ops
  simp only [run, List.foldl_cons, List.foldl_nil, System.step]
  split_ifs with hr
  · exact (hinv.userStore hr.1 hr.2 b).load r' hr' hne va' hva'
  · rfl

/-! ## One page -/

/-- A kernel image of 2 MiB, the whole bitmap and all reference counts. -/
def fullPlatform : Platform where
  kernelEnd := 0x200000
  bitmapBits := 256 * 4096 * 8
  maxFrames := 128 * 1024
  bitmapBits_le := le_rfl
  maxFrames_le := le_rfl

/-- One address space with one user page at address 0, in frame `f`. The tables are the
frames 1 to 4, and the frames from 6 to 99 are free. -/
def onePage (f : ℕ) : System where
  machine :=
    { mem := fun t i =>
        if i = 0 ∧ 1 ≤ t ∧ t < 4 then withFrame (t + 1) 7
        else if i = 0 ∧ t = 4 then withFrame f 7
        else 0
      free := fun g => decide (6 ≤ g ∧ g < 100)
      refs := fun _ => 0 }
  spaces := [1]

theorem mem_onePage_present (h : ((onePage f).machine.mem t i).present = true) :
    i = 0 ∧ 1 ≤ t ∧ t ≤ 4 ∧
      (onePage f).machine.mem t i = withFrame (if t = 4 then f else t + 1) 7 := by
  simp only [onePage] at h ⊢
  split_ifs at h ⊢ with h₁ h₂ h₃ h₄
  · omega
  · exact ⟨h₁.1, h₁.2.1, by omega, rfl⟩
  · exact ⟨h₃.1, by omega, by omega, rfl⟩
  · exact absurd h₃.2 h₄
  · cases h
  · cases h

/-- The tables are on the path of zeros. -/
theorem IsTable.onePage {f p t} (h : IsTable (onePage f).machine [1] r p t) :
    r = 1 ∧ p = List.replicate p.length 0 ∧ t = 1 + p.length := by
  obtain ⟨hr, hp, -, ht⟩ := h
  obtain rfl := List.mem_singleton.mp hr
  refine ⟨rfl, ?_⟩
  induction p generalizing t with
  | nil => exact ⟨rfl, (Option.some.inj ht).symm⟩
  | cons i p ih =>
    rw [List.length_cons] at hp
    obtain ⟨t', ht', hpresent, hframe⟩ := tableAt_cons_eq_some.mp ht
    obtain ⟨hzeros, rfl⟩ := ih (by omega) ht'
    obtain ⟨rfl, -, -, hentry⟩ := mem_onePage_present hpresent
    rw [hentry, if_neg (by omega), frame_withFrame (by omega)] at hframe
    refine ⟨?_, by rw [List.length_cons]; omega⟩
    rw [List.length_cons, List.replicate_succ, ← hzeros]

/-- The user page is at the end of the path of zeros. -/
theorem userPage_onePage {f k pg} (hf : f < 2 ^ 40)
    (h : userPage (onePage f).machine [1] k = some pg) :
    k = (1, List.replicate 4 0) ∧ pg = ⟨f, true⟩ := by
  obtain ⟨i, p, t, hq, hp, -, ht, hpage⟩ := userPage_eq_some.mp h
  obtain ⟨hr, hzeros, rfl⟩ := ht.onePage
  unfold pageOf at hpage
  split_ifs at hpage with hflags
  rw [Bool.and_eq_true] at hflags
  obtain ⟨rfl, -, -, hentry⟩ := mem_onePage_present hflags.1
  rw [hentry, if_pos (by omega), frame_withFrame hf, rw_withFrame] at hpage
  rw [hp] at hzeros
  exact ⟨Prod.ext hr (by rw [hq, hzeros]; rfl), (Option.some.inj hpage).symm⟩

theorem start_onePage (hf : f < 2 ^ 40) (hfree : f = 5 ∨ 100 ≤ f) :
    Start (onePage f) 1 where
  spaces := rfl
  tables :=
    { alloc := fun h => by
        obtain ⟨-, -, rfl⟩ := h.onePage
        have := h.length
        simp only [Memory.onePage, decide_eq_false_iff_not]
        omega
      inj := fun h h' => by
        obtain ⟨rfl, hp, ht⟩ := h.onePage
        obtain ⟨rfl, hp', ht'⟩ := h'.onePage
        rw [hp, hp', show _ = _ from Nat.add_left_cancel (ht.symm.trans ht')]
        exact ⟨rfl, rfl⟩
      noPs := fun _ _ _ i hpresent => by
        obtain ⟨-, -, -, hentry⟩ := mem_onePage_present hpresent
        rw [hentry, ps_withFrame]
        rfl
      data := fun h => by
        obtain ⟨-, rfl⟩ := userPage_onePage hf h
        refine ⟨?_, fun r p ht => ?_⟩
        · simp only [Memory.onePage, decide_eq_false_iff_not]
          omega
        · have := ht.length
          have := ht.onePage.2.2
          simp only at this
          omega }
  writable := fun k pg h => by rw [(userPage_onePage hf h).2]
  distinct := fun k k' pg pg' hne h h' =>
    absurd ((userPage_onePage hf h).1.trans (userPage_onePage hf h').1.symm) hne

/-- After a fork of the page, a store by the parent is not seen by the child. -/
theorem fork_isolated_onePage :
    userLoad (run (System.step fullPlatform) (onePage 5) [.clone 1, .store 1 0 1]).machine 6 0 =
      some 0 := by
  refine (fork_isolated fullPlatform (onePage 5) 1 (start_onePage (by decide) (by decide))
    [.clone 1] 1 0 1 ⟨fun _ q pg h => ?_, trivial, trivial⟩ 6 (by decide +kernel) (by decide) 0
    (by decide)).trans (by decide +kernel)
  obtain ⟨-, rfl⟩ := userPage_onePage (by decide) h
  exact ⟨rfl, by decide, by decide⟩

/-- A page cloned twice is counted once: after a copy by one of the three address spaces, a
store by the second is seen by the third. The same happens after one clone in a frame
without a count. -/
theorem fork_shared_page_written :
    (Start (onePage 5) 1 ∧
      userLoad (run (System.step fullPlatform) (onePage 5)
        [.clone 1, .clone 1, .store 1 0 1]).machine 10 0 = some 0 ∧
      userLoad (run (System.step fullPlatform) (onePage 5)
        [.clone 1, .clone 1, .store 1 0 1, .store 6 0 2]).machine 10 0 = some 2) ∧
    Start (onePage 200000) 1 ∧
      userLoad (run (System.step fullPlatform) (onePage 200000) [.clone 1]).machine 6 0 = some 0 ∧
      userLoad (run (System.step fullPlatform) (onePage 200000)
        [.clone 1, .store 1 0 1]).machine 6 0 = some 1 := by
  refine ⟨⟨start_onePage (by decide) (by decide), ?_⟩, start_onePage (by decide) (by decide), ?_⟩
  · decide +kernel
  · decide +kernel

end Tomahawk.Memory
