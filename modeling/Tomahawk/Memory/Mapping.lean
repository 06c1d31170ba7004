import Tomahawk.Memory.DemandPaging

/-!
# Mapping and unmapping pages

`paging_map_page`, `paging_unmap_page` and `paging_get_phys` on the tree of page tables of one
address space. The translation of an address is read off the entry at the path of its indices.
Making the tables on the way to a page, also when it fails half-way, changes no such entry, and
storing the entry of the page changes only that one.
-/

namespace Tomahawk.Memory

open Function

/-- `paging_get_phys` -/
def pagingGetPhys (s : Machine) (pml4 va : ℕ) : ℕ :=
  if pml4 = 0 then 0
  else
    let ent4 := s.mem pml4 (pml4Index va)
    if !ent4.present then 0
    else
      let ent3 := s.mem ent4.frame (pdptIndex va)
      if !ent3.present then 0
      else if ent3.ps then ent3.frame * 4096 + va % 2 ^ 30
      else
        let ent2 := s.mem ent3.frame (pdIndex va)
        if !ent2.present then 0
        else if ent2.ps then ent2.frame * 4096 + va % 2 ^ 21
        else
          let ent1 := s.mem ent2.frame (ptIndex va)
          if !ent1.present then 0 else ent1.frame * 4096 + va % 2 ^ 12

/-- `paging_unmap_page` -/
def pagingUnmapPage (s : Machine) (pml4 va : ℕ) : Machine × ℤ :=
  if pml4 = 0 then (s, -1)
  else
    let ent4 := s.mem pml4 (pml4Index va)
    if !ent4.present then (s, -2)
    else
      let ent3 := s.mem ent4.frame (pdptIndex va)
      if !ent3.present then (s, -3)
      else
        let ent2 := s.mem ent3.frame (pdIndex va)
        if !ent2.present then (s, -4) else (s.writeEntry ent2.frame (ptIndex va) 0, 0)

/-! ## Translations by path -/

/-- The indices that lead to the entry for an address. -/
def pathOf (va : ℕ) : Path := [ptIndex va, pdIndex va, pdptIndex va, pml4Index va]

/-- The number of the page of an address in the 48-bit space. -/
def pageNumber (va : ℕ) : ℕ := va / 4096 % 2 ^ 36

/-- The tables of an address space are distinct frames in use, and map pages of 4 KiB. -/
structure PageTree (s : Machine) (r : ℕ) : Prop where
  distinct : ∀ {p q t}, p.length ≤ 3 → q.length ≤ 3 → tableAt s r p = some t →
    tableAt s r q = some t → p = q
  used : ∀ {p t}, p.length ≤ 3 → tableAt s r p = some t → s.free t = false
  small : ∀ {p t i}, p ≠ [] → p.length ≤ 2 → tableAt s r p = some t →
    (s.mem t i).present = true → (s.mem t i).ps = false

/-- The present entry at a path. -/
def leafAt (s : Machine) (r : ℕ) (q : Path) : Option Word := (entryAt s r q).filter (·.present)

/-- The pages of the tree are those of the tree before. -/
def SameLeaves (s s' : Machine) (r : ℕ) : Prop :=
  ∀ q : Path, q.length = 4 → leafAt s' r q = leafAt s r q

variable {pl : Platform} {s s' s'' : Machine} {r t c va va' frame : ℕ} {p q : Path}
  {i j : Fin 512} {e flags : Word} {q : Path} {t' : ℕ}

theorem SameLeaves.trans (h : SameLeaves s s' r) (h' : SameLeaves s' s'' r) :
    SameLeaves s s'' r := fun q hq => (h' q hq).trans (h q hq)

theorem leafAt_cons (i : Fin 512) (p : Path) : leafAt s r (i :: p) =
    (tableAt s r p).bind fun t => if (s.mem t i).present then some (s.mem t i) else none := by
  rw [leafAt, entryAt]
  cases tableAt s r p with
  | none => rfl
  | some t => rfl

/-- Addresses of different pages have different paths. -/
theorem pathOf_eq_iff : pathOf va = pathOf va' ↔ pageNumber va = pageNumber va' := by
  simp only [pathOf, List.cons.injEq, and_true, ptIndex, pdIndex, pdptIndex, pml4Index, Fin.ext_iff,
    Fin.val_ofNat, pageNumber]
  omega

theorem pathOf_page (va : ℕ) {k : ℕ} (hk : k < 4096) :
    pathOf (va / 4096 * 4096 + k) = pathOf va := by
  rw [pathOf_eq_iff, pageNumber, pageNumber]
  congr 1
  omega

/-- Where there are no large pages, `paging_get_phys` reads the entry at the path. -/
theorem PageTree.getPhys_eq (h : PageTree s r) (hr : r ≠ 0) (va : ℕ) :
    pagingGetPhys s r va = ((leafAt s r (pathOf va)).map
      fun e => e.frame * 4096 + va % 2 ^ 12).getD 0 := by
  have hpdpt := @small s r h [pml4Index va]
  have hpd := @small s r h [pdptIndex va, pml4Index va]
  simp only [pagingGetPhys, if_neg hr, pathOf, leafAt_cons]
  simp only [tableAt, Option.bind_some] at hpdpt hpd ⊢
  split_ifs <;> simp_all

/-- Trees with the same pages translate addresses alike. -/
theorem PageTree.getPhys_congr (h : PageTree s r) (h' : PageTree s' r)
    (hsame : leafAt s' r (pathOf va) = leafAt s r (pathOf va)) :
    pagingGetPhys s' r va = pagingGetPhys s r va := by
  by_cases hr : r = 0
  · rw [pagingGetPhys, pagingGetPhys, if_pos hr, if_pos hr]
  · rw [h'.getPhys_eq hr, h.getPhys_eq hr, hsame]

/-! ## One table on the way -/

/-- Reading the tree does not depend on the bitmap. -/
theorem tableAt_of_mem_eq (h : s'.mem = s.mem) (q : Path) : tableAt s' r q = tableAt s r q :=
  tableAt_congr fun _ _ _ _ _ => by rw [h]

theorem leafAt_of_mem_eq (h : s'.mem = s.mem) (q : Path) : leafAt s' r q = leafAt s r q := by
  cases q with
  | nil => rfl
  | cons i q => rw [leafAt_cons, leafAt_cons, tableAt_of_mem_eq h, h]

/-- The tables stay where they are and in use. -/
theorem PageTree.congr (h : PageTree s r)
    (htable : ∀ {q : Path}, q.length ≤ 3 → tableAt s' r q = tableAt s r q)
    (hfree : ∀ f, s.free f = false → s'.free f = false)
    (hsmall : ∀ {q t j}, q.length ≤ 2 → tableAt s r q = some t →
      (s'.mem t j).present = (s.mem t j).present ∧ (s'.mem t j).ps = (s.mem t j).ps) :
    PageTree s' r where
  distinct hp hq htp htq := by
    rw [htable hp] at htp
    rw [htable hq] at htq
    exact h.distinct hp hq htp htq
  used hp ht := by
    rw [htable hp] at ht
    exact hfree _ (h.used hp ht)
  small hne hp ht hpresent := by
    rw [htable (by omega)] at ht
    rw [(hsmall hp ht).1] at hpresent
    rw [(hsmall hp ht).2]
    exact h.small hne hp ht hpresent

/-- Changing the flags of an entry that leads on, or is absent. -/
theorem tableAt_writeFlags (hpresent : e.present = (s.mem t i).present)
    (hframe : e.frame = (s.mem t i).frame) (q : Path) :
    tableAt (s.writeEntry t i e) r q = tableAt s r q := by
  induction q with
  | nil => rfl
  | cons j q ih =>
    simp only [tableAt, ih]
    congr 1
    funext t'
    rw [Machine.writeEntry_mem]
    split_ifs with hat <;> simp_all

theorem PageTree.writeFlags (h : PageTree s r) (hp : p.length ≤ 2) (ht : tableAt s r p = some t)
    (hpresent : e.present = (s.mem t i).present) (hframe : e.frame = (s.mem t i).frame)
    (hps : e.ps = (s.mem t i).ps) :
    PageTree (s.writeEntry t i e) r ∧ SameLeaves s (s.writeEntry t i e) r := by
  have htable := fun q => tableAt_writeFlags (r := r) hpresent hframe q
  refine ⟨h.congr (fun _ => htable _) (fun _ hf => hf) fun _ _ => ?_, ?_⟩
  · rw [Machine.writeEntry_mem]
    split_ifs with hat
    · obtain ⟨rfl, rfl⟩ := hat
      exact ⟨hpresent, hps⟩
    · exact ⟨rfl, rfl⟩
  · intro q hq
    cases q with
    | nil => cases hq
    | cons j q =>
      have hlen : q.length = 3 := by simpa using hq
      rw [leafAt_cons, leafAt_cons, htable]
      refine Option.bind_congr fun t' ht' => ?_
      rw [Machine.writeEntry_mem_of_ne]
      rintro ⟨rfl, -⟩
      -- The table is nearer to the root than the tables of pages.
      have heq := h.distinct (by omega) (by omega) ht ht'
      rw [heq] at hp
      omega

section Link

variable (h : PageTree s r) (hp : p.length ≤ 2) (ht : tableAt s r p = some t)
  (habsent : (s.mem t i).present = false) (hc : s.free c = true) (hpresent : e.present = true)
  (hframe : e.frame = c) (hps : e.ps = false)

include h hc

/-- The new table is not yet in the tree. -/
theorem PageTree.ne_new (hq : q.length ≤ 3) (ht' : tableAt s r q = some t') :
    t' ≠ c := Machine.ne_of_free (h.used hq ht') hc

include hp ht

/-- What the tree reads in its tables stays, but for the entry that links the new table. -/
theorem PageTree.mem_linkTable (e : Word) (hq : q.length ≤ 3) (ht' : tableAt s r q = some t')
    (hne : j :: q ≠ i :: p) :
    (linkTable s t i e c).mem t' j = s.mem t' j := by
  rw [linkTable_mem, if_neg, if_neg (h.ne_new hc hq ht')]
  rintro ⟨rfl, rfl⟩
  exact hne (by rw [h.distinct hq (by omega) ht' ht])

include habsent hpresent hframe

/-- The tables after a new one was linked. -/
theorem PageTree.tableAt_linkTable (hq : q.length ≤ 4) :
    tableAt (linkTable s t i e c) r q = if q = i :: p then some c else tableAt s r q := by
  induction q with
  | nil => rfl
  | cons j q ih =>
    have hlen : q.length ≤ 3 := Nat.le_of_succ_le_succ hq
    rw [tableAt, ih (by omega)]
    by_cases hnew : q = i :: p
    · -- The new table is empty, and there was none before.
      have hct : c ≠ t := (h.ne_new hc (by omega) ht).symm
      have hbefore : tableAt s r (j :: q) = none := by
        refine tableAt_eq_none (p := i :: p) ?_ (hnew ▸ List.suffix_cons _ _)
        simp [tableAt, ht, habsent]
      rw [if_pos hnew, hbefore, if_neg (by rw [hnew]; simp), Option.bind_some,
        linkTable_zero s hct]
      rfl
    · rw [if_neg hnew]
      by_cases hat : j :: q = i :: p
      · obtain ⟨rfl, rfl⟩ := List.cons.inj hat
        rw [if_pos rfl, ht, Option.bind_some, linkTable_mem]
        simp [hpresent, hframe]
      · rw [if_neg hat, tableAt]
        exact Option.bind_congr fun t' ht' => by rw [h.mem_linkTable hp ht hc e hlen ht' hat]

/-- Linking an empty table. -/
theorem PageTree.linkTable (hps : e.ps = false) : PageTree (linkTable s t i e c) r ∧
    SameLeaves s (linkTable s t i e c) r := by
  have htable : ∀ {q : Path}, q.length ≤ 4 → _ :=
    fun hq => h.tableAt_linkTable hp ht habsent hc hpresent hframe hq
  have hct : c ≠ t := (h.ne_new hc (by omega) ht).symm
  have hzero := linkTable_zero s hct i e
  refine ⟨⟨?_, ?_, ?_⟩, ?_⟩
  · intro p' q t' hp' hq htp htq
    rw [htable (by omega)] at htp htq
    split_ifs at htp htq with hpn hqn hqn
    · rw [hpn, hqn]
    · cases htp
      exact absurd rfl (h.ne_new hc hq htq)
    · cases htq
      exact absurd rfl (h.ne_new hc hp' htp)
    · exact h.distinct hp' hq htp htq
  · intro q t' hq ht'
    rw [htable (by omega)] at ht'
    change update s.free c false t' = false
    split_ifs at ht'
    · cases ht'
      exact update_self _ _ _
    · rw [update_of_ne (h.ne_new hc hq ht')]
      exact h.used hq ht'
  · intro q t' j hne hq ht' hj
    rw [htable (by omega)] at ht'
    split_ifs at ht'
    · cases ht'
      rw [hzero]
      rfl
    · by_cases hat : j :: q = i :: p
      · obtain ⟨rfl, rfl⟩ := List.cons.inj hat
        obtain rfl : t = t' := Option.some.inj (ht.symm.trans ht')
        rw [linkTable_mem, if_pos ⟨rfl, rfl⟩]
        exact hps
      · rw [h.mem_linkTable hp ht hc e (by omega) ht' hat] at hj ⊢
        exact h.small hne hq ht' hj
  · intro q hq
    cases q with
    | nil => cases hq
    | cons j q =>
      have hlen : q.length = 3 := by simpa using hq
      rw [leafAt_cons, leafAt_cons, htable (by omega)]
      split_ifs with hnew
      · have hbefore : tableAt s r q = none := by
          rw [hnew, tableAt, ht]
          simp [habsent]
        rw [hbefore, Option.bind_some, hzero]
        rfl
      · refine Option.bind_congr fun t' ht' => ?_
        rw [h.mem_linkTable hp ht hc e (by omega) ht']
        rintro hat
        obtain ⟨rfl, rfl⟩ := List.cons.inj hat
        omega

end Link

section

variable (h : PageTree s r) (ht : tableAt s r p = some t)
include h ht

/-- What `ensure_table_with_flags` does to the tree, whether or not it succeeds. -/
theorem PageTree.ensureTable (hp : p.length ≤ 2) (pl : Platform) (i : Fin 512) (flags : Word) :
    PageTree (ensureTableWithFlags pl s t i flags).1 r ∧
      SameLeaves s (ensureTableWithFlags pl s t i flags).1 r ∧
      ((ensureTableWithFlags pl s t i flags).2 ≠ 0 →
        tableAt (ensureTableWithFlags pl s t i flags).1 r (i :: p) =
          some (ensureTableWithFlags pl s t i flags).2) := by
  rcases ensureTable_cases pl s t i flags with ⟨hpresent, heq⟩ | ⟨habsent, ⟨free, heq, hkept⟩ |
    ⟨c, e, heq, hfree, hpresent, hframe, hps, -⟩⟩ <;> rw [heq]
  · have htable : tableAt s r (i :: p) = some (s.mem t i).frame :=
      tableAt_cons_eq_some.mpr ⟨t, ht, hpresent, rfl⟩
    split_ifs
    · have hframe := frame_or_pteUser (s.mem t i)
      have hpresent' := present_or_pteUser (s.mem t i)
      obtain ⟨htree, hsame⟩ := h.writeFlags hp ht hpresent' hframe (ps_or_pteUser _)
      exact ⟨htree, hsame, fun _ => (tableAt_writeFlags hpresent' hframe _).trans htable⟩
    · exact ⟨h, fun _ _ => rfl, fun _ => htable⟩
  · have hmem : ({ s with free := free } : Machine).mem = s.mem := rfl
    exact ⟨h.congr (fun _ => tableAt_of_mem_eq hmem _) hkept fun _ _ => ⟨rfl, rfl⟩,
      fun q _ => leafAt_of_mem_eq hmem q, fun hne => absurd rfl hne⟩
  · obtain ⟨htree, hsame⟩ := h.linkTable hp ht habsent hfree hpresent hframe hps
    refine ⟨htree, hsame, fun _ => ?_⟩
    rw [h.tableAt_linkTable hp ht habsent hfree hpresent hframe (by rw [List.length_cons]; omega),
      if_pos rfl]

/-- The tables along a list of indices, as far as they can be made. -/
theorem PageTree.ensurePath (pl : Platform) (flags : Word) (is : List (Fin 512))
    (hlen : is.length + p.length ≤ 3) :
    PageTree (ensurePath pl flags is s t).1 r ∧ SameLeaves s (ensurePath pl flags is s t).1 r ∧
      ((ensurePath pl flags is s t).2 ≠ 0 →
        tableAt (ensurePath pl flags is s t).1 r (is.reverse ++ p) =
          some (ensurePath pl flags is s t).2) := by
  induction is generalizing s p t with
  | nil => exact ⟨h, fun _ _ => rfl, fun _ => ht⟩
  | cons i is ih =>
    rw [List.length_cons] at hlen
    obtain ⟨htree, hsame, htable⟩ := h.ensureTable ht (by omega) pl i flags
    rw [Memory.ensurePath]
    generalize ensureTableWithFlags pl s t i flags = a at htree hsame htable ⊢
    obtain ⟨s', _ | c⟩ := a
    · exact ⟨htree, hsame, fun hne => absurd rfl hne⟩
    · obtain ⟨htree', hsame', htable'⟩ :=
        ih htree (p := i :: p) (htable (Nat.succ_ne_zero c)) (by rw [List.length_cons]; omega)
      refine ⟨htree', hsame.trans hsame', fun hne => ?_⟩
      rw [List.reverse_cons, List.append_assoc]
      exact htable' hne

/-! ## The entry of a page -/

/-- Storing the entry of a page. -/
theorem PageTree.writeLeaf (hp : p.length = 3) (i : Fin 512) (e : Word) :
    PageTree (s.writeEntry t i e) r ∧ ∀ q : Path, q.length = 4 →
      leafAt (s.writeEntry t i e) r q =
        if q = i :: p then (if e.present then some e else none) else leafAt s r q := by
  -- The tables nearer to the root are other frames.
  have hmem : ∀ {q : Path} {t' : ℕ} {j : Fin 512}, q.length ≤ 2 → tableAt s r q = some t' →
      (s.writeEntry t i e).mem t' j = s.mem t' j := by
    intro q t' j hq ht'
    refine Machine.writeEntry_mem_of_ne ?_
    rintro ⟨rfl, -⟩
    have heq := h.distinct (by omega) (by omega) ht' ht
    rw [heq] at hq
    omega
  have htable : ∀ {q : Path}, q.length ≤ 3 → tableAt (s.writeEntry t i e) r q = tableAt s r q := by
    intro q hq
    refine tableAt_congr fun p' j t' hsuffix ht' => hmem ?_ ht'
    have hle := hsuffix.length_le
    rw [List.length_cons] at hle
    omega
  refine ⟨h.congr htable (fun _ hf => hf) fun hq ht' => by simp [hmem hq ht'], ?_⟩
  · intro q hq
    cases q with
    | nil => cases hq
    | cons j q =>
      have hlen : q.length = 3 := by simpa using hq
      rw [leafAt_cons, leafAt_cons, htable (by omega)]
      by_cases hat : j :: q = i :: p
      · obtain ⟨rfl, rfl⟩ := List.cons.inj hat
        rw [if_pos rfl, ht, Option.bind_some, Machine.writeEntry_mem]
        simp
      · rw [if_neg hat]
        refine Option.bind_congr fun t' ht' => ?_
        rw [Machine.writeEntry_mem_of_ne]
        rintro ⟨rfl, rfl⟩
        exact hat (by rw [h.distinct (by omega) (by omega) ht' ht])

end

/-- The tree after `paging_map_page`: the page has its new entry, or all pages are as before. -/
theorem PageTree.mapPage (h : PageTree s r) (hr : r ≠ 0) (pl : Platform) (va frame : ℕ)
    (flags : Word) :
    PageTree (pagingMapPage pl s r va frame flags).1 r ∧
      ((pagingMapPage pl s r va frame flags).2 = 0 → ∀ q : Path, q.length = 4 →
        leafAt (pagingMapPage pl s r va frame flags).1 r q =
          if q = pathOf va then some (withFrame frame flags ||| ptePresent) else leafAt s r q) ∧
      ((pagingMapPage pl s r va frame flags).2 ≠ 0 →
        SameLeaves s (pagingMapPage pl s r va frame flags).1 r) := by
  rw [pagingMapPage_eq hr]
  obtain ⟨htree, hsame, htable⟩ :=
    h.ensurePath (p := []) rfl pl flags (indicesOf va) (by simp [indicesOf])
  generalize Memory.ensurePath pl flags (indicesOf va) s r = a at htree hsame htable ⊢
  obtain ⟨s', _ | pt⟩ := a
  · exact ⟨htree, fun hzero => absurd hzero (Int.negSucc_ne_zero 0), fun _ => hsame⟩
  · have ht := htable (Nat.succ_ne_zero pt)
    obtain ⟨htree', hleaf⟩ := htree.writeLeaf ht (by simp [indicesOf]) (ptIndex va)
      (withFrame frame flags ||| ptePresent)
    refine ⟨htree', fun _ q hq => ?_, fun hne => absurd rfl hne⟩
    have hentry := hleaf q hq
    rw [present_or_ptePresent, if_pos rfl, hsame q hq] at hentry
    exact hentry

theorem pagingUnmapPage_fst (hr : r ≠ 0) : (pagingUnmapPage s r va).1 =
    ((tableAt s r [pdIndex va, pdptIndex va, pml4Index va]).map
      fun t => s.writeEntry t (ptIndex va) 0).getD s := by
  simp only [pagingUnmapPage, if_neg hr, tableAt, Option.bind_some]
  split_ifs <;> simp_all

/-- The tree after `paging_unmap_page`: the page has no entry, and the others are as before. -/
theorem PageTree.unmapPage (h : PageTree s r) (hr : r ≠ 0) (va : ℕ) :
    PageTree (pagingUnmapPage s r va).1 r ∧ ∀ q : Path, q.length = 4 →
      leafAt (pagingUnmapPage s r va).1 r q = if q = pathOf va then none else leafAt s r q := by
  rw [pagingUnmapPage_fst hr]
  cases ht : tableAt s r [pdIndex va, pdptIndex va, pml4Index va] with
  | none =>
    -- Without a table for it the page has no entry already.
    rw [Option.map_none, Option.getD_none]
    refine ⟨h, fun q _ => ?_⟩
    split_ifs with hq
    · rw [hq, pathOf, leafAt_cons, ht]
      rfl
    · rfl
  | some t => exact h.writeLeaf ht rfl (ptIndex va) 0

theorem frame_pageEntry (hframe : frame < 2 ^ 40) (flags : Word) :
    (withFrame frame flags ||| ptePresent).frame = frame := by
  rw [frame_or_ptePresent, frame_withFrame hframe]

/-- Mapping a page translates the addresses of that page to the frame and leaves the other pages
alone, a failed call leaves all pages alone, and unmapping removes one page. -/
theorem pagingMapPage_exact (pl : Platform) (s : Machine) (pml4 va frame : ℕ) (flags : Word)
    (htree : PageTree s pml4) (hframe : frame < 2 ^ 40) :
    ((pagingMapPage pl s pml4 va frame flags).2 = 0 →
      (∀ k < 4096, pagingGetPhys (pagingMapPage pl s pml4 va frame flags).1 pml4
        (va / 4096 * 4096 + k) = frame * 4096 + k) ∧
      ∀ va', pageNumber va' ≠ pageNumber va →
        pagingGetPhys (pagingMapPage pl s pml4 va frame flags).1 pml4 va' =
          pagingGetPhys s pml4 va') ∧
    ((pagingMapPage pl s pml4 va frame flags).2 ≠ 0 → ∀ va',
      pagingGetPhys (pagingMapPage pl s pml4 va frame flags).1 pml4 va' =
        pagingGetPhys s pml4 va') ∧
    (∀ k < 4096, pagingGetPhys (pagingUnmapPage s pml4 va).1 pml4 (va / 4096 * 4096 + k) = 0) ∧
    ∀ va', pageNumber va' ≠ pageNumber va →
      pagingGetPhys (pagingUnmapPage s pml4 va).1 pml4 va' = pagingGetPhys s pml4 va' := by
  by_cases hr : pml4 = 0
  · simp [hr, pagingMapPage, pagingGetPhys]
  obtain ⟨hmap, hdone, hfail⟩ := htree.mapPage hr pl va frame flags
  obtain ⟨hunmap, hleaf⟩ := htree.unmapPage hr va
  refine ⟨fun hzero => ⟨fun k hk => ?_, fun va' hne => ?_⟩, fun hne va' => ?_, fun k hk => ?_,
    fun va' hne => ?_⟩
  · rw [hmap.getPhys_eq hr, pathOf_page va hk, hdone hzero _ rfl, if_pos rfl, Option.map_some,
      Option.getD_some, frame_pageEntry hframe]
    omega
  · refine htree.getPhys_congr hmap ?_
    rw [hdone hzero _ rfl, if_neg fun heq => hne (pathOf_eq_iff.mp heq)]
  · exact htree.getPhys_congr hmap (hfail hne _ rfl)
  · rw [hunmap.getPhys_eq hr, pathOf_page va hk, hleaf _ rfl, if_pos rfl]
    rfl
  · refine htree.getPhys_congr hunmap ?_
    rw [hleaf _ rfl, if_neg fun heq => hne (pathOf_eq_iff.mp heq)]

/-- An empty PML4 is a tree. -/
theorem pageTree_fresh : PageTree freshProcess.machine 1 := by
  have htable : ∀ {q : Path} {t : ℕ}, tableAt freshProcess.machine 1 q = some t →
      q = [] ∧ t = 1 := by
    intro q t ht
    rcases List.eq_nil_or_concat q with rfl | ⟨q, i, rfl⟩
    · exact ⟨rfl, (Option.some.inj ht).symm⟩
    · have hnone : tableAt freshProcess.machine 1 [i] = none := by
        simp [tableAt, freshProcess, Word.present]
      rw [List.concat_eq_append, tableAt_eq_none hnone (List.suffix_append _ _)] at ht
      cases ht
  refine ⟨fun _ _ hp hq => ?_, fun _ ht => ?_, fun hne _ ht => ?_⟩
  · rw [(htable hp).1, (htable hq).1]
  · rw [(htable ht).2]
    rfl
  · exact absurd (htable ht).1 hne

/-- A second page is mapped next to the first one. -/
theorem pagingMapPage_exact_second :
    (pagingMapPage smallPlatform
        (pagingMapPage smallPlatform freshProcess.machine 1 0x400000 7 faultFlags).1 1 0x401000 6
        faultFlags).2 = 0 ∧
      pagingGetPhys (pagingMapPage smallPlatform
        (pagingMapPage smallPlatform freshProcess.machine 1 0x400000 7 faultFlags).1 1 0x401000 6
        faultFlags).1 1 (0x401000 / 4096 * 4096 + 5) = 6 * 4096 + 5 := by
  have htree := (pageTree_fresh.mapPage (by decide) smallPlatform 0x400000 7 faultFlags).1
  refine ⟨?hzero, ((pagingMapPage_exact smallPlatform _ 1 0x401000 6 faultFlags htree
    (by decide)).1 ?hzero).1 5 (by decide)⟩
  decide

end Tomahawk.Memory
