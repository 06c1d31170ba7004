import Tomahawk.Memory.ForkIsolation
import Tomahawk.Memory.Mapping

/-!
# What a clone translates

`paging_clone_cow` builds a tree of its own for the lower half, in which every address has the
translation that it has in the source, and the source keeps its translations.
-/

namespace Tomahawk.Memory

variable {pl : Platform} {s s' : Machine} {own : ℕ → Path} {src dst t c va k : ℕ} {p : Path}
  {r f : ℕ} {i : Fin 512} {e e' : Word}

@[simp]
theorem cow_markCow (e : Word) : (markCow e).cow = true := by
  simp [markCow, Word.cow, pteCow]

/-- Large pages end a walk. -/
def largeAt (k : ℕ) (_ : Fin 512) (e : Word) : Bool := k ≠ 3 && e.ps

/-- The frame is a table of the tree of `t`, a table of level `k`, in which the entries that `ends`
tells do not lead on. -/
def TreeTable (s : Machine) (ends : ℕ → Fin 512 → Word → Bool) : ℕ → ℕ → ℕ → Prop
  | 0, t, f => f = t
  | k + 1, t, f => f = t ∨ ∃ i, (s.mem t i).present = true ∧ ends (k + 1) i (s.mem t i) = false ∧
      TreeTable s ends k (s.mem t i).frame f

/-- The index of an address at a level. -/
def indexAt (va : ℕ) : ℕ → Fin 512
  | 0 => ptIndex va
  | 1 => pdIndex va
  | 2 => pdptIndex va
  | _ => pml4Index va

/-- The level, the table and the index of the entry at which the walk for an address ends. -/
def walkEnd (s : Machine) (va : ℕ) : ℕ → ℕ → Option (ℕ × ℕ × Fin 512)
  | 0, t => some (0, t, ptIndex va)
  | k + 1, t =>
    let e := s.mem t (indexAt va (k + 1))
    if e.present then
      if largeAt (k + 1) (indexAt va (k + 1)) e then some (k + 1, t, indexAt va (k + 1))
      else walkEnd s va k e.frame
    else none

/-- The address that an entry of a level gives. -/
def physOf (va k : ℕ) (e : Word) : ℕ :=
  if e.present then e.frame * 4096 + va % 2 ^ (12 + 9 * k) else 0

theorem pagingGetPhys_eq (s : Machine) (va : ℕ) (hr : r ≠ 0) : pagingGetPhys s r va =
    ((walkEnd s va 3 r).map fun a => physOf va a.1 (s.mem a.2.1 a.2.2)).getD 0 := by
  simp only [pagingGetPhys, hr, if_false, walkEnd, indexAt, largeAt]
  split_ifs <;> simp_all [physOf]

theorem pagingGetPte_eq_walkEnd {pt : ℕ} (hr : r ≠ 0) :
    pagingGetPte s r va = some (pt, i) ↔ walkEnd s va 3 r = some (0, pt, i) := by
  simp only [pagingGetPte, hr, if_false, walkEnd, indexAt, largeAt]
  split_ifs <;> simp_all

theorem Alike.physOf_eq (h : Alike pl s e e') (va k : ℕ) :
    physOf va k e' = physOf va k e := by
  simp only [physOf, h.keeps]

theorem Alike.largeAt_eq (h : Alike pl s e e') :
    largeAt k i e' = largeAt k i e := by
  simp only [largeAt, h.keeps]

/-- The tables of `t` are in use. -/
def TreeUsed (s : Machine) (k t : ℕ) : Prop := ∀ f, TreeTable s largeAt k t f → s.free f = false

theorem TreeUsed.self (h : TreeUsed s k t) : s.free t = false := by
  cases k with
  | zero => exact h t rfl
  | succ k => exact h t (.inl rfl)

theorem TreeUsed.below (h : TreeUsed s (k + 1) t) (hp : (s.mem t i).present = true)
    (hl : largeAt (k + 1) i (s.mem t i) = false) : TreeUsed s k (s.mem t i).frame :=
  fun f hf => h f (.inr ⟨i, hp, hl, hf⟩)

theorem TreeUsed.usedBelow (h : TreeUsed s k t) : UsedBelow s k t := by
  induction k generalizing t with
  | zero => exact h.self
  | succ k ih =>
    refine ⟨h.self, fun i hp hkeep => ih (h.below hp ?_)⟩
    unfold keepAt at hkeep
    split_ifs at hkeep with hk <;> simp_all [largeAt]

section Clone

variable (hcopied : Copied pl s s s' 0 []) (hused : TreeUsed s k t)
include hcopied hused

/-- The source keeps its tables. -/
theorem treeTable_source (hf : TreeTable s' largeAt k t f) : TreeTable s largeAt k t f := by
  induction k generalizing t with
  | zero => exact hf
  | succ k ih =>
    rcases hf with rfl | ⟨i, hp, hl, hf⟩
    · exact .inl rfl
    · obtain ⟨hp', hframe, -, -⟩ := (hcopied.alike t hused.self i).keeps
      rw [hp'] at hp
      rw [(hcopied.alike t hused.self i).largeAt_eq] at hl
      rw [hframe] at hf
      exact .inr ⟨i, hp, hl, ih (hused.below hp hl) hf⟩

/-- The source keeps its walks. -/
theorem walkEnd_source (va : ℕ) : walkEnd s' va k t = walkEnd s va k t ∧
    ∀ a ∈ walkEnd s va k t, Alike pl s' (s.mem a.2.1 a.2.2) (s'.mem a.2.1 a.2.2) := by
  induction k generalizing t with
  | zero =>
    refine ⟨rfl, ?_⟩
    rintro _ ⟨⟩
    exact hcopied.alike t hused.self _
  | succ k ih =>
    have halike := hcopied.alike t hused.self (indexAt va (k + 1))
    obtain ⟨hp, hframe, -, -⟩ := halike.keeps
    simp only [walkEnd, hp, hframe, halike.largeAt_eq]
    by_cases hpresent : (s.mem t (indexAt va (k + 1))).present = true
    · simp only [hpresent, if_true]
      cases hlarge : largeAt (k + 1) (indexAt va (k + 1)) (s.mem t (indexAt va (k + 1))) with
      | true => simpa using halike
      | false => simpa using ih (hused.below hpresent hlarge)
    · simp [hpresent]

/-- The clone walks along its own tables as the source does. -/
theorem Mirrors.walkEnd (hm : Mirrors pl s s s' own k p t c) :
    (walkEnd s' va k c).map (fun a => physOf va a.1 (s'.mem a.2.1 a.2.2)) =
        (walkEnd s va k t).map (fun a => physOf va a.1 (s.mem a.2.1 a.2.2)) ∧
      ∀ t₁ i, Memory.walkEnd s va k t = some (0, t₁, i) → (pml4Index va).val < 256 →
        ∃ c₁, Memory.walkEnd s' va k c = some (0, c₁, i) ∧ LeafOk pl s s' t₁ c₁ i := by
  induction k generalizing t c p with
  | zero =>
    refine ⟨?_, ?_⟩
    · have hleaf := hm (ptIndex va)
      unfold LeafOk at hleaf
      simp only [Memory.walkEnd, Option.map_some, Option.some.injEq]
      split_ifs at hleaf with hp
      · exact hleaf.1.physOf_eq va 0
      · simp [physOf, hp, hleaf]
    · rintro _ _ ⟨⟩ -
      exact ⟨c, rfl, hm _⟩
  | succ k ih =>
    have hentry := hm (indexAt va (k + 1))
    unfold EntryOk at hentry
    simp only [Memory.walkEnd]
    set i := indexAt va (k + 1) with hi
    split_ifs at hentry with hp hkeep
    · -- Where the clone copies an entry it goes on in the tables of the source.
      obtain ⟨hp', hframe, -, -⟩ := hentry.keeps
      simp only [hp', hp, if_true, hentry.largeAt_eq, hframe]
      cases hlarge : largeAt (k + 1) i (s.mem t i) with
      | true => simpa using hentry.physOf_eq va (k + 1)
      | false =>
        obtain ⟨hwalk, halike⟩ := walkEnd_source hcopied (hused.below hp hlarge) va
        obtain rfl : k = 2 := by
          by_contra hk
          simp_all [keepAt, largeAt]
        simp only [Bool.false_eq_true, if_false, hwalk]
        refine ⟨Option.map_congr fun a ha => (halike a ha).physOf_eq va a.1, fun t₁ j _ hlow => ?_⟩
        have hupper : 256 ≤ i.val := by simpa [keepAt] using hkeep
        exact absurd hlow (by rw [hi] at hupper; exact hupper.not_gt)
    · obtain ⟨hp', hps, -, -, -, hbelow⟩ := hentry
      have hlarge : largeAt (k + 1) i (s.mem t i) = false := by
        unfold keepAt at hkeep
        split_ifs at hkeep <;> simp_all [largeAt]
      have hlarge' : largeAt (k + 1) i (s'.mem c i) = false := by rw [← hlarge, largeAt, largeAt, hps]
      simp only [hp, hp', if_true, hlarge, hlarge', Bool.false_eq_true, if_false]
      exact ih (hused.below hp hlarge) hbelow
    · simp [hp, hentry]

end Clone

/-- The tables of the clone are new. -/
theorem Mirrors.treeTable (hm : Mirrors pl s s s' own k p t c) (hc : s.free c = true)
    (hf : TreeTable s' keepAt k c f) : s.free f = true := by
  induction k generalizing t c p with
  | zero => exact hf ▸ hc
  | succ k ih =>
    rcases hf with rfl | ⟨i, hp, hk, hf⟩
    · exact hc
    have hentry := hm i
    unfold EntryOk at hentry
    split_ifs at hentry with hold hkeep
    · rw [keepAt, hentry.keeps.2.2.1, ← keepAt, hkeep] at hk
      cases hk
    · exact ih hentry.2.2.2.2.2 hentry.2.2.1 hf
    · rw [hentry] at hp
      cases hp

/-- A clone that succeeds translates every address as the source does, and the source as before.
Writable user pages of 4 KiB in the lower half become copy-on-write in both, unless they are in the
kernel image. No table of the lower half of the clone is a table of the source. -/
theorem clone_faithful (pl : Platform) (s : Machine) (src : ℕ)
    (htables : ∀ f, TreeTable s largeAt 3 src f → s.free f = false)
    (hok : (pagingCloneCow pl s src).2 ≠ 0) :
    let s' := (pagingCloneCow pl s src).1
    let dst := (pagingCloneCow pl s src).2
    (∀ va, pagingGetPhys s' dst va = pagingGetPhys s src va ∧
      pagingGetPhys s' src va = pagingGetPhys s src va) ∧
    (∀ va pt i, (pml4Index va).val < 256 → pagingGetPte s src va = some (pt, i) →
      (s.mem pt i).present = true → (s.mem pt i).user = true → (s.mem pt i).rw = true →
      isKernel pl (s.mem pt i).frame = false →
      pagingGetPte s' src va = some (pt, i) ∧ (s'.mem pt i).rw = false ∧ (s'.mem pt i).cow = true ∧
        ∃ pt', pagingGetPte s' dst va = some (pt', i) ∧ (s'.mem pt' i).rw = false ∧
          (s'.mem pt' i).cow = true) ∧
    ∀ f, TreeTable s' keepAt 3 dst f → ¬ TreeTable s' largeAt 3 src f := by
  have hsrc : src ≠ 0 := by
    rintro rfl
    exact hok rfl
  have hused : TreeUsed s 3 src := htables
  obtain ⟨hcopied, hdone⟩ := @pagingCloneCow_spec pl s src hused.usedBelow
  obtain ⟨own, hnew, -, -, hm⟩ := hdone hok
  generalize pagingCloneCow pl s src = r at hok hcopied hnew hm ⊢
  obtain ⟨s', dst⟩ := r
  refine ⟨fun va => ?_, fun va pt i hlow hpte hp _ hw hk => ?_, fun f hf hf' => ?_⟩
  · obtain ⟨hwalk, halike⟩ := walkEnd_source hcopied hused va
    rw [pagingGetPhys_eq s' va hok, pagingGetPhys_eq s' va hsrc, pagingGetPhys_eq s va hsrc, hwalk,
      (hm.walkEnd hcopied hused).1]
    refine ⟨rfl, congrArg (Option.getD · 0) (Option.map_congr fun a ha => ?_)⟩
    exact (halike a ha).physOf_eq va a.1
  · rw [pagingGetPte_eq_walkEnd hsrc] at hpte
    obtain ⟨c, hc, hleaf⟩ := (hm.walkEnd hcopied hused).2 pt i hpte hlow
    rw [LeafOk, if_pos hp] at hleaf
    obtain ⟨hmark, hmark', -⟩ := hleaf.2 hw hk
    rw [pagingGetPte_eq_walkEnd hsrc, (walkEnd_source hcopied hused va).1, hmark]
    refine ⟨hpte, rw_markCow _, cow_markCow _, c, (pagingGetPte_eq_walkEnd hok).mpr hc, ?_⟩
    rw [hmark']
    exact ⟨rw_markCow _, cow_markCow _⟩
  · have hold := hused f (treeTable_source hcopied hused hf')
    rw [hm.treeTable hnew hf] at hold
    cases hold

/-- The tables of the address space with one page are its frames 1 to 4. -/
theorem TreeTable.onePage {t : ℕ} (ht : k + t = 4)
    (h : TreeTable (onePage 5).machine largeAt k t f) :
    f ≤ 4 := by
  induction k generalizing t with
  | zero => exact h.le.trans (by omega)
  | succ k ih =>
    rcases h with rfl | ⟨i, hp, -, hf⟩
    · omega
    · rw [(mem_onePage_present hp).2.2.2, if_neg (by omega), frame_withFrame (by omega)] at hf
      exact ih (by omega) hf

theorem clone_faithful_onePage :
    pagingGetPhys (pagingCloneCow fullPlatform (onePage 5).machine 1).1
      (pagingCloneCow fullPlatform (onePage 5).machine 1).2 7 = 5 * 4096 + 7 := by
  have htables : ∀ f, TreeTable (onePage 5).machine largeAt 3 1 f →
      (onePage 5).machine.free f = false := by
    intro f hf
    have := hf.onePage rfl
    simp only [onePage, decide_eq_false_iff_not]
    omega
  have hok : (pagingCloneCow fullPlatform (onePage 5).machine 1).2 ≠ 0 := by decide +kernel
  exact ((clone_faithful fullPlatform (onePage 5).machine 1 htables hok).1 7).1.trans
    (by decide +kernel)

/-! ## A clone that fails -/

theorem takes_allocZeroedPage (pl : Platform) (s : Machine) :
    Takes s (allocZeroedPage pl s).1 := by
  intro f hf
  unfold allocZeroedPage
  rcases pfaAllocFrame_spec pl s with ⟨free, halloc, hkept⟩ | ⟨c, hc, -, -, halloc⟩
  · rw [halloc]
    exact hkept f hf
  · rw [halloc]
    obtain ⟨n, rfl⟩ := Nat.exists_eq_succ_of_ne_zero hc
    by_cases hfc : f = n + 1
    · rw [hfc]
      exact Function.update_self _ _ _
    · exact (Function.update_of_ne hfc _ _).trans hf

theorem free_clonePt (pl : Platform) (st dt : ℕ) (is : List (Fin 512)) (s : Machine) :
    (clonePt pl st dt is s).free = s.free := by
  have hinc : ∀ s f, (refcountInc pl s f).1.free = s.free := fun s f => by
    obtain ⟨refs, heq, -⟩ := refcountInc_spec pl s f
    rw [heq]
  fun_induction clonePt pl st dt is s with
  | case1 => rfl
  | case2 i is s _ ih =>
    rw [ih, cloneEntry]
    split_ifs <;> simp [hinc, Machine.writeEntry]
  | case3 i is s _ ih => exact ih

theorem takes_cloneTable {keep : Fin 512 → Word → Bool}
    {child : ℕ → ℕ → Machine → Machine × Bool} (hchild : ∀ st dt s, Takes s (child st dt s).1)
    (st dt : ℕ) (is : List (Fin 512)) (s : Machine) :
    Takes s (cloneTable pl keep child st dt is s).1 := by
  induction is generalizing s with
  | nil => exact fun _ hf => hf
  | cons i is ih =>
    intro f hf
    rw [cloneTable]
    split_ifs
    · exact ih _ f hf
    · exact ih _ f hf
    · have halloc := takes_allocZeroedPage pl s f hf
      dsimp only
      split <;> rename_i hres <;> rw [hres] at halloc
      · exact halloc
      · rename_i s₁ c _
        have hbelow := hchild (s.mem st i).frame c (s₁.writeEntry dt i (withFrame c (s₁.mem st i)))
          f halloc
        split <;> rename_i hdone <;> rw [hdone] at hbelow
        · exact hbelow
        · exact ih _ f hbelow

theorem takes_clonePml4 (pl : Platform) (src dst : ℕ) (s : Machine) :
    Takes s (clonePml4 pl src dst s).1 := by
  refine takes_cloneTable (fun _ _ _ => takes_cloneTable (fun _ _ _ => takes_cloneTable ?_ _ _ _ _)
    _ _ _ _) _ _ _ _
  intro st dt s f hf
  rwa [free_clonePt]

/-- The entry of the page of an address, and where user code can load and store through it. -/
def permissions (s : Machine) (pml4 va : ℕ) : Option Word × Option (ℕ × ℕ) × Option (ℕ × ℕ) :=
  ((pagingGetPte s pml4 va).map fun a => s.mem a.1 a.2, userWalk s pml4 va false,
    userWalk s pml4 va true)

/-- A clone leaves the free frames, the counts and the permissions of its source alone exactly if
there was no free frame at all. So one that fails later is not undone: the frames it took stay
taken. -/
theorem failed_clone_undone_iff (pl : Platform) (s : Machine) (src : ℕ) (hsrc : src ≠ 0) :
    ((pagingCloneCow pl s src).1.free = s.free ∧ (pagingCloneCow pl s src).1.refs = s.refs ∧
        permissions (pagingCloneCow pl s src).1 src = permissions s src) ↔
      ∀ f < pl.bitmapBits, s.free f = false := by
  cases hfind : findFree s.free pl.bitmapBits 0 with
  | none =>
    have hsame : pagingCloneCow pl s src = (s, 0) := by
      rw [pagingCloneCow, if_neg hsrc, pagingCreatePml4, allocZeroedPage, pfaAllocFrame, hfind]
      rfl
    rw [hsame]
    exact iff_of_true ⟨rfl, rfl, rfl⟩ fun f hf => findFree_eq_none hfind f.zero_le (by omega)
  | some k =>
    obtain ⟨hk, hlt⟩ := findFree_eq_some hfind
    have htaken : (pagingCloneCow pl s src).1.free k = false := by
      have hpml4 : (pagingCreatePml4 pl s).1.free k = false := by
        rw [pagingCreatePml4, allocZeroedPage, pfaAllocFrame, hfind]
        cases k <;> simp
      rw [pagingCloneCow, if_neg hsrc]
      split <;> rename_i halloc <;> rw [halloc] at hpml4
      · exact hpml4
      · rename_i s₁ dst _
        have hclone := takes_clonePml4 pl src dst s₁ k hpml4
        split <;> rename_i hres <;> rw [hres] at hclone <;> exact hclone
    refine iff_of_false (fun h => ?_) fun h => ?_
    · rw [h.1, hk] at htaken
      cases htaken
    · rw [h k (by omega)] at hk
      cases hk

/-- A kernel image of 2 MiB and a bitmap of eight frames. -/
def eightFrames : Platform :=
  { fullPlatform with bitmapBits := 8, bitmapBits_le := smallPlatform.bitmapBits_le }

theorem failed_clone_undone_full :
    (pagingCloneCow eightFrames ⟨fun _ _ => 0, fun _ => false, fun _ => 0⟩ 1).1.free =
      fun _ => false :=
  ((failed_clone_undone_iff eightFrames ⟨fun _ _ => 0, fun _ => false, fun _ => 0⟩ 1
    (by decide)).mpr fun _ _ => rfl).1

/-- Two free frames become the PML4 and the PDPT of the clone, and stay taken when there is none
for its PD. -/
theorem failed_clone_leaks :
    (pagingCloneCow eightFrames (onePage 5).machine 1).2 = 0 ∧
      (onePage 5).machine.free 6 = true ∧
      (pagingCloneCow eightFrames (onePage 5).machine 1).1.free 6 = false := by
  decide +kernel

end Tomahawk.Memory
