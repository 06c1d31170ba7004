import Tomahawk.Memory.PageTables

/-!
# Cloning an address space

What `paging_clone_cow` does to the machine, after any number of its writes: the entries of frames
that were in use before stay, but for pages that become copy-on-write, and the new tables are made
for those of the source. From this follows that the clone keeps the invariant of all address spaces,
the new one included, if the user pages of the source are writable and in frames that have a
reference count and are outside the kernel image.
-/

namespace Tomahawk.Memory

open Function Tomahawk.Lib

variable {pl : Platform} {old s s' s'' : Machine} {st dt t c : ℕ} {i : Fin 512} {p : Path}
  {is js : List (Fin 512)} {e e' e'' : Word}

/-- No frame becomes free. -/
def Takes (s s' : Machine) : Prop := ∀ f, s.free f = false → s'.free f = false

/-! ## Entries -/

/-- The entry is as it was, or its page is copy-on-write since and counts two references. -/
def Alike (pl : Platform) (s : Machine) (e e' : Word) : Prop :=
  e' = e ∨ e' = markCow e ∧ (e.frame < pl.maxFrames → 1 < s.refs e.frame)

theorem Alike.trans (h : Alike pl s e e') (h' : Alike pl s' e' e'')
    (hrefs : ∀ f, s.refs f ≤ s'.refs f) : Alike pl s' e e'' := by
  have hmono : Alike pl s' e e' := h.imp_right fun h => ⟨h.1, fun hf => (h.2 hf).trans_le (hrefs _)⟩
  rcases h' with rfl | ⟨rfl, hcount⟩
  · exact hmono
  · rcases hmono with rfl | ⟨rfl, hold⟩
    · exact .inr ⟨rfl, hcount⟩
    · exact .inr ⟨markCow_markCow e, hold⟩

theorem Alike.mono (h : Alike pl s e e') (hrefs : ∀ f, s.refs f ≤ s'.refs f) : Alike pl s' e e' :=
  h.trans (.inl rfl) hrefs

/-- What leads to a table or a page stays. -/
theorem Alike.keeps (h : Alike pl s e e') :
    e'.present = e.present ∧ e'.frame = e.frame ∧ e'.ps = e.ps ∧ e'.user = e.user := by
  rcases h with rfl | ⟨rfl, -⟩
  · exact ⟨rfl, rfl, rfl, rfl⟩
  · simp [frame_markCow]

/-- What a part of the clone does to the machine. The frames in use in `old` are those from before
the clone: their entries stay alike. Of the frames made since, only the entries `is` of `dt`
change. -/
structure Copied (pl : Platform) (old s s' : Machine) (dt : ℕ) (is : List (Fin 512)) : Prop where
  takes : Takes s s'
  refs : ∀ f, s.refs f ≤ s'.refs f
  alike : ∀ t, old.free t = false → ∀ i, Alike pl s' (s.mem t i) (s'.mem t i)
  made : ∀ c i, old.free c = true → s.free c = false → ¬ (c = dt ∧ i ∈ is) →
    s'.mem c i = s.mem c i

theorem Copied.refl (s : Machine) : Copied pl old s s dt is :=
  ⟨fun _ hf => hf, fun _ => le_rfl, fun _ _ _ => .inl rfl, fun _ _ _ _ _ => rfl⟩

theorem Copied.trans {dt' : ℕ} (h : Copied pl old s s' dt is) (h' : Copied pl old s' s'' dt' js)
    (hin : ∀ c i, old.free c = true → s.free c = false → c = dt' ∧ i ∈ js → c = dt ∧ i ∈ is) :
    Copied pl old s s'' dt is where
  takes f hf := h'.takes f (h.takes f hf)
  refs f := (h.refs f).trans (h'.refs f)
  alike t ht i := (h.alike t ht i).trans (h'.alike t ht i) h'.refs
  made c i hc hs hnot := by
    rw [h'.made c i hc (h.takes c hs) fun hat => hnot (hin c i hc hs hat), h.made c i hc hs hnot]

theorem Copied.mono (h : Copied pl old s s' dt is) (hsub : is ⊆ js) : Copied pl old s s' dt js :=
  ⟨h.takes, h.refs, h.alike, fun c i hc hs hnot => h.made c i hc hs fun hat => hnot ⟨hat.1, hsub hat.2⟩⟩

theorem Copied.elsewhere (h : Copied pl old s s' 0 []) : Copied pl old s s' dt is :=
  (Copied.refl s).trans h (by simp)

/-- The clone so far, and what it does next. -/
theorem Copied.then (h : Copied pl old old s 0 []) (h' : Copied pl old s s' dt is) :
    Copied pl old old s' 0 [] :=
  h.trans h' fun c _ hc hs => absurd (hc.symm.trans hs) (by simp)

/-- Writing an entry of the new table. -/
theorem copied_writeEntry (hdt : old.free dt = true) (e : Word) :
    Copied pl old s (s.writeEntry dt i e) dt [i] where
  takes _ hf := hf
  refs _ := le_rfl
  alike t ht j := by
    left
    refine Machine.writeEntry_mem_of_ne ?_
    rintro ⟨rfl, -⟩
    simp [hdt] at ht
  made c j _ _ hnot := Machine.writeEntry_mem_of_ne (by simpa using hnot)

/-- `alloc_zeroed_page` fails or takes a free frame. -/
theorem copied_allocZeroedPage (h : Copied pl old old s 0 []) :
    (∃ s', allocZeroedPage pl s = (s', 0) ∧ Copied pl old s s' 0 []) ∨
      ∃ s' c, allocZeroedPage pl s = (s', c + 1) ∧ c + 1 < 2 ^ 40 ∧ old.free (c + 1) = true ∧
        s.free (c + 1) = true ∧ s'.free (c + 1) = false ∧ (∀ i, s'.mem (c + 1) i = 0) ∧
        Copied pl old s s' 0 [] := by
  unfold allocZeroedPage
  rcases pfaAllocFrame_spec pl s with ⟨free, halloc, hfree⟩ | ⟨c, hc, hbits, hcfree, halloc⟩
  · rw [halloc]
    exact .inl ⟨_, rfl, hfree, fun _ => le_rfl, fun _ _ _ => .inl rfl, fun _ _ _ _ _ => rfl⟩
  · obtain ⟨n, rfl⟩ := Nat.exists_eq_succ_of_ne_zero hc
    have hnew : old.free (n + 1) = true := by
      by_contra hnot
      rw [h.takes _ (by simpa using hnot)] at hcfree
      cases hcfree
    rw [halloc]
    refine .inr ⟨_, n, rfl, ?_, hnew, hcfree, update_self _ _ _, fun i => ?_, ?_⟩
    · have := pl.bitmapBits_le
      omega
    · simp
    · have hkeep : ∀ f, s.free f = false → update s.mem (n + 1) (fun _ => 0) f = s.mem f :=
        fun f hf => update_of_ne (Machine.ne_of_free hf hcfree) _ _
      refine ⟨fun f hf => update_used hf _, fun _ => le_rfl, fun t ht i => .inl ?_,
        fun c i _ hs _ => ?_⟩
      · exact congrFun (hkeep t (h.takes t ht)) i
      · exact congrFun (hkeep c hs) i

/-- One entry of the innermost loop: source and destination get the same entry, and a writable page
outside the kernel image is shared. -/
theorem cloneEntry_eq {st dt : ℕ} (hne : st ≠ dt) (i : Fin 512) :
    ∃ e refs, cloneEntry pl st dt i s =
        { (s.writeEntry st i e).writeEntry dt i e with refs := refs } ∧
      (∀ f, s.refs f ≤ refs f) ∧
      if (s.mem st i).rw && !isKernel pl (s.mem st i).frame then
        e = markCow (s.mem st i) ∧
          ((s.mem st i).frame < pl.maxFrames → 1 < refs (s.mem st i).frame)
      else e = s.mem st i := by
  have hsrc : (s.writeEntry dt i (s.mem st i)).mem st i = s.mem st i :=
    Machine.writeEntry_mem_of_ne fun h => hne h.1
  have hcopy : s.writeEntry dt i (s.mem st i) =
      (s.writeEntry st i (s.mem st i)).writeEntry dt i (s.mem st i) := by
    rw [Machine.writeEntry_self]
  have hmark : ((s.writeEntry dt i (s.mem st i)).writeEntry st i (markCow (s.mem st i))).writeEntry
      dt i (markCow (s.mem st i)) =
      (s.writeEntry st i (markCow (s.mem st i))).writeEntry dt i (markCow (s.mem st i)) := by
    rw [Machine.writeEntry_comm hne, Machine.writeEntry_twice]
  unfold cloneEntry
  simp only [hsrc]
  split_ifs with hshare hkernel
  · have hdst : ((s.writeEntry dt i (s.mem st i)).writeEntry st i (markCow (s.mem st i))).mem dt i =
        s.mem st i := by
      rw [Machine.writeEntry_mem_of_ne fun h => hne h.1.symm, Machine.writeEntry_mem,
        if_pos ⟨rfl, rfl⟩]
    rw [hdst, hmark]
    set s₁ := (s.writeEntry st i (markCow (s.mem st i))).writeEntry dt i (markCow (s.mem st i))
    obtain ⟨refs₁, hinc₁, hle₁, hnew₁⟩ := refcountInc_spec pl s₁ (s.mem st i).frame
    obtain ⟨refs₂, hinc₂, hle₂, hnew₂⟩ :=
      refcountInc_spec pl { s₁ with refs := refs₁ } (s.mem st i).frame
    rw [hinc₁, hinc₂]
    refine ⟨_, refs₂, rfl, fun f => le_trans (hle₁ f) (hle₂ f), rfl, fun hf => ?_⟩
    have h₂ := hnew₂ hf
    simp only at h₂
    omega
  · obtain ⟨refs, hinc, hle, -⟩ :=
      refcountInc_spec pl (s.writeEntry dt i (s.mem st i)) (s.mem st i).frame
    rw [hinc, hcopy]
    exact ⟨_, refs, rfl, hle, rfl⟩
  · rw [hcopy]
    exact ⟨_, _, rfl, fun _ => le_rfl, rfl⟩

/-- The page at an entry of the old table `t` has its copy in the table `c`: if it is writable and
outside the kernel image, both are copy-on-write. -/
def LeafOk (pl : Platform) (old s : Machine) (t c : ℕ) (i : Fin 512) : Prop :=
  if (old.mem t i).present then
    Alike pl s (old.mem t i) (s.mem c i) ∧
      ((old.mem t i).rw = true → isKernel pl (old.mem t i).frame = false →
        s.mem t i = markCow (old.mem t i) ∧ s.mem c i = markCow (old.mem t i) ∧
          ((old.mem t i).frame < pl.maxFrames → 1 < s.refs (old.mem t i).frame))
  else (s.mem c i).present = false

theorem LeafOk.later (h : LeafOk pl old s t c i) (hstep : Copied pl old s s' dt is)
    (ht : old.free t = false) (hc : s'.mem c i = s.mem c i) : LeafOk pl old s' t c i := by
  unfold LeafOk at h ⊢
  rw [hc]
  split_ifs at h ⊢
  · refine ⟨h.1.mono hstep.refs, fun hw hk => ?_⟩
    obtain ⟨hsrc, hdst, hcount⟩ := h.2 hw hk
    refine ⟨?_, hdst, fun hf => (hcount hf).trans_le (hstep.refs _)⟩
    have hstill := hstep.alike t ht i
    rw [hsrc] at hstill
    rcases hstill with heq | ⟨heq, -⟩
    · exact heq
    · rw [heq, markCow_markCow]
  · exact h

section

variable (h : Copied pl old old s 0 []) (hst : old.free st = false) (hdt : old.free dt = true)
include h hst hdt

theorem copied_cloneEntry (hpresent : (s.mem st i).present = true) :
    Copied pl old s (cloneEntry pl st dt i s) dt [i] ∧
      LeafOk pl old (cloneEntry pl st dt i s) st dt i := by
  have hne := Machine.ne_of_free hst hdt
  obtain ⟨e, refs, heq, hrefs, he⟩ := @cloneEntry_eq pl s st dt hne i
  rw [heq]
  have hmem : ∀ u j, ((s.writeEntry st i e).writeEntry dt i e).mem u j =
      if (u = dt ∨ u = st) ∧ j = i then e else s.mem u j := by
    intro u j
    rw [Machine.writeEntry_mem, Machine.writeEntry_mem]
    grind
  have halike : Alike pl { s with refs := refs } (s.mem st i) e := by
    split_ifs at he
    · exact .inr he
    · exact .inl he
  have hold := h.alike st hst i
  refine ⟨⟨fun _ hf => hf, hrefs, fun u hu j => ?_, fun c j hc _ hnot => ?_⟩, ?_⟩
  · simp only [hmem]
    split_ifs with hat
    · obtain ⟨rfl | rfl, rfl⟩ := hat
      · simp [hdt] at hu
      · exact halike
    · exact .inl rfl
  · simp only [hmem]
    refine if_neg ?_
    rintro ⟨rfl | rfl, rfl⟩
    · exact hnot ⟨rfl, by simp⟩
    · simp [hst] at hc
  · unfold LeafOk
    rw [← hold.keeps.1, hpresent, if_pos rfl]
    simp only [hmem, true_or, or_true, true_and, if_true]
    refine ⟨hold.trans halike hrefs, fun hw hk => ?_⟩
    rcases hold with hsame | ⟨hsame, hcount⟩
    · rw [hsame, hw, hk] at he
      exact ⟨he.1, he.1, he.2⟩
    · rw [hsame, rw_markCow] at he
      exact ⟨he, he, fun hf => (hcount hf).trans_le (hrefs _)⟩

/-- The loop over a PT. -/
theorem copied_clonePt (hused : s.free dt = false) (hzero : ∀ i ∈ is, s.mem dt i = 0)
    (hnodup : is.Nodup) : Copied pl old s (clonePt pl st dt is s) dt is ∧
      ∀ i ∈ is, LeafOk pl old (clonePt pl st dt is s) st dt i := by
  induction is generalizing s with
  | nil => exact ⟨.refl s, fun _ hi => by simp at hi⟩
  | cons i is ih =>
    obtain ⟨hi, hnodup⟩ := List.nodup_cons.mp hnodup
    rw [clonePt]
    split_ifs with hpresent
    · obtain ⟨hstep, hleaf⟩ := copied_cloneEntry h hst hdt hpresent
      have hothers : ∀ j ∈ is, (cloneEntry pl st dt i s).mem dt j = 0 := fun j hj => by
        rw [hstep.made dt j hdt hused (by rintro ⟨-, hji⟩; exact hi (by simp_all)),
          hzero j (.tail _ hj)]
      obtain ⟨hrest, hleaves⟩ := ih (h.then hstep) (hstep.takes _ hused) hothers hnodup
      refine ⟨(hstep.mono (by simp)).trans hrest fun _ j _ _ hat => ⟨hat.1, by simp [hat.2]⟩,
        fun j hj => ?_⟩
      rcases List.mem_cons.mp hj with rfl | hj
      · exact hleaf.later hrest hst (hrest.made dt _ hdt (hstep.takes _ hused) fun hat => hi hat.2)
      · exact hleaves j hj
    · obtain ⟨hrest, hleaves⟩ := ih h hused (fun j hj => hzero j (.tail _ hj)) hnodup
      refine ⟨hrest.mono (List.subset_cons_self _ _), fun j hj => ?_⟩
      rcases List.mem_cons.mp hj with rfl | hj
      · rw [LeafOk, ← (h.alike st hst j).keeps.1, if_neg hpresent,
          hrest.made dt j hdt hused fun hat => hi hat.2, hzero j hj]
        rfl
      · exact hleaves j hj

end

/-! ## Tables -/

/-- The entries that the clone copies at a level, where a PML4 is level 3: the upper half, and large
pages. -/
def keepAt (k : ℕ) (i : Fin 512) (e : Word) : Bool := if k = 3 then decide (256 ≤ i.val) else e.ps

/-- The tables that the clone visits below `t` are in use. -/
def UsedBelow (s : Machine) : ℕ → ℕ → Prop
  | 0, t => s.free t = false
  | k + 1, t => s.free t = false ∧ ∀ i, (s.mem t i).present = true →
      keepAt (k + 1) i (s.mem t i) = false → UsedBelow s k (s.mem t i).frame

/-- The entry of the table `c` that was made for an entry of the old table `t` at path `p`. A table
below it is a frame that was free in `lo`, and `own` tells its path. -/
def EntryOk (pl : Platform) (old lo s : Machine) (own : ℕ → Path) (k : ℕ)
    (below : Path → ℕ → ℕ → Prop) (p : Path) (t c : ℕ) (i : Fin 512) : Prop :=
  if (old.mem t i).present then
    if keepAt k i (old.mem t i) then Alike pl s (old.mem t i) (s.mem c i)
    else (s.mem c i).present = true ∧ (s.mem c i).ps = (old.mem t i).ps ∧
      lo.free (s.mem c i).frame = true ∧ s.free (s.mem c i).frame = false ∧
      own (s.mem c i).frame = i :: p ∧ below (i :: p) (old.mem t i).frame (s.mem c i).frame
  else (s.mem c i).present = false

/-- The table `c` and those below it are made for the old table `t`. -/
def Mirrors (pl : Platform) (old lo s : Machine) (own : ℕ → Path) : ℕ → Path → ℕ → ℕ → Prop
  | 0, _, t, c => ∀ i, LeafOk pl old s t c i
  | k + 1, p, t, c => ∀ i, EntryOk pl old lo s own (k + 1) (Mirrors pl old lo s own k) p t c i

variable {k : ℕ} {lo lo' : Machine} {own own' : ℕ → Path} {child : ℕ → ℕ → Machine → Machine × Bool}

theorem UsedBelow.used (h : UsedBelow s k t) : s.free t = false := by
  cases k with
  | zero => exact h
  | succ k => exact h.1

section Later

variable (hstep : Copied pl old s s' dt is) (hold : Takes old lo) (hlo : Takes lo' lo)
  (hdt : lo.free dt = false) (hown : ∀ f, lo.free f = true → s.free f = false → own' f = own f)
include hstep hold hlo hdt hown

theorem EntryOk.later {below below' : Path → ℕ → ℕ → Prop}
    (hbelow : ∀ {p t c}, UsedBelow old k t → old.free c = true → s.free c = false → c ≠ dt →
      below p t c → below' p t c)
    (h : EntryOk pl old lo s own (k + 1) below p t c i) (ht : UsedBelow old (k + 1) t)
    (hentry : s'.mem c i = s.mem c i) : EntryOk pl old lo' s' own' (k + 1) below' p t c i := by
  have hfree : ∀ {lo lo' : Machine} {f}, Takes lo' lo → lo.free f = true → lo'.free f = true := by
    intro lo lo' f hle hf
    by_contra hnot
    simp [hle f (by simpa using hnot)] at hf
  unfold EntryOk at h ⊢
  rw [hentry]
  split_ifs at h ⊢ with hpresent hkeep
  · exact h.mono hstep.refs
  · obtain ⟨hp, hps, hfresh, hin, hpath, h⟩ := h
    refine ⟨hp, hps, hfree hlo hfresh, hstep.takes _ hin, (hown _ hfresh hin).trans hpath,
      hbelow (ht.2 i hpresent (by simpa using hkeep)) (hfree hold hfresh) hin ?_ h⟩
    rintro heq
    rw [heq, hdt] at hfresh
    cases hfresh
  · exact h

/-- A table stays what it is while the clone goes on elsewhere. -/
theorem Mirrors.later (ht : UsedBelow old k t) (hnew : old.free c = true) (hused : s.free c = false)
    (hc : c ≠ dt) (h : Mirrors pl old lo s own k p t c) : Mirrors pl old lo' s' own' k p t c := by
  have hentry := fun i => hstep.made c i hnew hused fun hat => hc hat.1
  induction k generalizing p t c with
  | zero => exact fun i => (h i).later hstep ht (hentry i)
  | succ k ih =>
    refine fun i => EntryOk.later hstep hold hlo hdt hown ?_ (h i) ht (hentry i)
    exact fun ht hnew hused hc h =>
      ih ht hnew hused hc h fun i => hstep.made _ i hnew hused fun hat => hc hat.1

end Later

/-- What a loop over a table of level `k` has to do. -/
def ClonesTree (pl : Platform) (old : Machine) (k : ℕ)
    (child : ℕ → ℕ → Machine → Machine × Bool) : Prop :=
  ∀ p s st dt, Copied pl old old s 0 [] → UsedBelow old k st → old.free dt = true →
    s.free dt = false → (∀ i, s.mem dt i = 0) →
    Copied pl old s (child st dt s).1 dt (List.finRange 512) ∧
      ((child st dt s).2 = true → ∃ own, Mirrors pl old s (child st dt s).1 own k p st dt)

/-- What a loop over the entries `is` of a table of level `k + 1` comes to. -/
def LoopOk (pl : Platform) (old : Machine) (k : ℕ) (p : Path) (st dt : ℕ) (is : List (Fin 512))
    (s : Machine) (r : Machine × Bool) : Prop :=
  Copied pl old s r.1 dt is ∧ (r.2 = true → ∃ own, ∀ i ∈ is,
    EntryOk pl old s r.1 own (k + 1) (Mirrors pl old s r.1 own k) p st dt i)

section Loop

variable (h : Copied pl old old s 0 []) (hst : UsedBelow old (k + 1) st) (hdt : old.free dt = true)
  (hused : s.free dt = false)
include h hst hdt hused

/-- One entry, and the rest of the loop. -/
theorem LoopOk.cons {s₁ : Machine} {r : Machine × Bool} (hstep : LoopOk pl old k p st dt [i] s (s₁, true))
    (hrest : LoopOk pl old k p st dt is s₁ r) (hi : i ∉ is) :
    LoopOk pl old k p st dt (i :: is) s r := by
  obtain ⟨⟨hstep, hentry⟩, ⟨hcopied, hdone⟩⟩ := hstep, hrest
  have hused₁ := hstep.takes _ hused
  refine ⟨(hstep.mono (by simp)).trans hcopied fun _ j _ _ hat => ⟨hat.1, by simp [hat.2]⟩,
    fun hok => ?_⟩
  obtain ⟨own, hentry⟩ := hentry rfl
  obtain ⟨own', hentries⟩ := hdone hok
  -- The frames taken for the entry `i` are the ones in use after it.
  refine ⟨fun f => if s₁.free f then own' f else own f, fun j hj => ?_⟩
  rcases List.mem_cons.mp hj with rfl | hj
  · have hown : ∀ f, s.free f = true → s₁.free f = false →
        (if s₁.free f then own' f else own f) = own f := fun f _ hf => by simp [hf]
    exact (hentry j (by simp)).later hcopied h.takes (fun _ hf => hf) hused hown
      (Mirrors.later hcopied h.takes (fun _ hf => hf) hused hown) hst
      (hcopied.made dt j hdt hused₁ fun hat => hi hat.2)
  · have hown : ∀ f, s₁.free f = true → r.1.free f = false →
        (if s₁.free f then own' f else own f) = own' f := fun f hf _ => by simp [hf]
    have hold₁ := (h.then hstep).takes
    have hstay : Copied pl old r.1 r.1 dt [] := .refl r.1
    exact (hentries j hj).later hstay hold₁ hstep.takes hused₁ hown
      (Mirrors.later hstay hold₁ hstep.takes hused₁ hown) hst rfl

/-- A loop over an upper table, given what the loops over the tables below it do. -/
theorem loopOk_cloneTable (hchild : ClonesTree pl old k child) (p : Path)
    (hzero : ∀ i ∈ is, s.mem dt i = 0) (hnodup : is.Nodup) :
    LoopOk pl old k p st dt is s (cloneTable pl (keepAt (k + 1)) child st dt is s) := by
  induction is generalizing s with
  | nil => exact ⟨.refl s, fun _ => ⟨fun _ => [], fun _ hi => by simp at hi⟩⟩
  | cons i is ih =>
    obtain ⟨hi, hnodup⟩ := List.nodup_cons.mp hnodup
    have hrest : ∀ {s₁}, LoopOk pl old k p st dt [i] s (s₁, true) → LoopOk pl old k p st dt (i :: is)
        s (cloneTable pl (keepAt (k + 1)) child st dt is s₁) := by
      intro s₁ hstep
      refine hstep.cons h hst hdt hused (ih (h.then hstep.1) (hstep.1.takes _ hused) ?_ hnodup) hi
      intro j hj
      rw [hstep.1.made dt j hdt hused (by rintro ⟨-, hji⟩; exact hi (by simp_all)),
        hzero j (.tail _ hj)]
    have hold := h.alike st hst.used i
    have hkeep : keepAt (k + 1) i (s.mem st i) = keepAt (k + 1) i (old.mem st i) := by
      simp only [keepAt, hold.keeps]
    rw [cloneTable]
    split_ifs with habsent hcopy
    · refine hrest ⟨.refl s, fun _ => ⟨fun _ => [], ?_⟩⟩
      simp only [List.mem_singleton, forall_eq]
      rw [EntryOk, ← hold.keeps.1, if_neg (by simpa using habsent), hzero i List.mem_cons_self]
      rfl
    · refine hrest ⟨copied_writeEntry hdt _, fun _ => ⟨fun _ => [], ?_⟩⟩
      simp only [List.mem_singleton, forall_eq]
      rw [EntryOk, ← hold.keeps.1, if_pos (by simpa using habsent), ← hkeep, if_pos hcopy,
        Machine.writeEntry_mem, if_pos ⟨rfl, rfl⟩]
      exact hold
    · have hpresent : (s.mem st i).present = true := by simpa using habsent
      have hleads : keepAt (k + 1) i (old.mem st i) = false := by simpa [hkeep] using hcopy
      rcases copied_allocZeroedPage h with ⟨s₁, hfail, hcopied⟩ |
        ⟨s₁, c, halloc, hlt, hnew, hfree, hc, hzeroed, hcopied⟩
      · rw [hfail]
        exact ⟨hcopied.elsewhere, fun hok => by cases hok⟩
      · have hne := Machine.ne_of_free hused hfree
        have hentry₁ := hold.trans (hcopied.alike st hst.used i) hcopied.refs
        simp only [halloc]
        generalize hs₂ : s₁.writeEntry dt i (withFrame (c + 1) (s₁.mem st i)) = s₂
        have hlink : Copied pl old s s₂ dt [i] := by
          rw [← hs₂]
          exact hcopied.elsewhere.trans (copied_writeEntry hdt _) fun _ _ _ _ hat => hat
        have hmem : ∀ u j, s₂.mem u j =
            if u = dt ∧ j = i then withFrame (c + 1) (s₁.mem st i) else s₁.mem u j := by
          rw [← hs₂]
          exact s₁.writeEntry_mem dt i _
        have hc₂ : s₂.free (c + 1) = false := by rw [← hs₂]; exact hc
        have hbelow := hst.2 i (by rw [← hold.keeps.1, hpresent]) hleads
        rw [hold.keeps.2.1]
        obtain ⟨hstep, hdone⟩ := hchild (i :: p) s₂ _ (c + 1) (h.then hlink) hbelow hnew hc₂
          fun j => by rw [hmem, if_neg fun hat => hne hat.1.symm, hzeroed]
        have hboth : Copied pl old s _ dt [i] := hlink.trans hstep fun f j _ hf hat =>
          absurd hat.1 (Machine.ne_of_free hf hfree)
        generalize child (old.mem st i).frame (c + 1) s₂ = r at hstep hdone hboth ⊢
        obtain ⟨s₃, _ | _⟩ := r
        · exact ⟨hboth.mono (by simp), fun hok => by cases hok⟩
        obtain ⟨own, hmirrors⟩ := hdone rfl
        refine hrest ⟨hboth, fun _ => ⟨update own (c + 1) (i :: p), ?_⟩⟩
        have hentry : s₃.mem dt i = withFrame (c + 1) (s₁.mem st i) := by
          rw [hstep.made dt i hdt (hlink.takes _ hused) fun hat => hne hat.1, hmem,
            if_pos ⟨rfl, rfl⟩]
        simp only [List.mem_singleton, forall_eq]
        rw [EntryOk, ← hold.keeps.1, if_pos hpresent, hleads, if_neg (by simp), hentry,
          frame_withFrame hlt, present_withFrame, ps_withFrame, hentry₁.keeps.1, hentry₁.keeps.2.2.1,
          ← hold.keeps.1]
        refine ⟨hpresent, rfl, hfree, hstep.takes _ hc₂, update_self _ _ _, ?_⟩
        have hstay : Copied pl old s₃ s₃ dt [] := .refl s₃
        refine Mirrors.later hstay (h.then hlink).takes hlink.takes (hlink.takes _ hused) ?_ hbelow hnew
          (hstep.takes _ hc₂) hne.symm hmirrors
        exact fun f hf _ => update_of_ne (Machine.ne_of_free hc₂ hf).symm _ _

end Loop

theorem clonesTree_pt (pl : Platform) (old : Machine) : ClonesTree pl old 0
    fun st dt s => (clonePt pl st dt (List.finRange 512) s, true) := by
  intro p s st dt h hst hdt hused hzero
  dsimp only
  obtain ⟨hcopied, hleaves⟩ := copied_clonePt h hst hdt hused (fun i _ => hzero i)
    (List.nodup_finRange 512)
  exact ⟨hcopied, fun _ => ⟨fun _ => [], fun i => hleaves i (List.mem_finRange i)⟩⟩

theorem clonesTree_succ {keep : Fin 512 → Word → Bool} (hkeep : keepAt (k + 1) = keep)
    (hchild : ClonesTree pl old k child) : ClonesTree pl old (k + 1) fun st dt s =>
      cloneTable pl keep child st dt (List.finRange 512) s := by
  subst hkeep
  intro p s st dt h hst hdt hused hzero
  obtain ⟨hcopied, hdone⟩ := loopOk_cloneTable h hst hdt hused hchild p (fun i _ => hzero i)
    (List.nodup_finRange 512)
  refine ⟨hcopied, fun hok => ?_⟩
  obtain ⟨own, hentries⟩ := hdone hok
  exact ⟨own, fun i => hentries i (List.mem_finRange i)⟩

theorem clonesTree_pml4 (pl : Platform) (old : Machine) : ClonesTree pl old 3 (clonePml4 pl) := by
  unfold clonePml4 clonePdpt clonePd
  exact clonesTree_succ rfl (clonesTree_succ rfl (clonesTree_succ rfl (clonesTree_pt pl old)))

/-- The new PML4 `dst` and the tables below it are made for the old tables of the lower half. -/
def MadeFor (pl : Platform) (s s' : Machine) (own : ℕ → Path) (src dst : ℕ) : Prop :=
  s.free dst = true ∧ s'.free dst = false ∧ own dst = [] ∧ Mirrors pl s s s' own 3 [] src dst

/-- What `paging_clone_cow` does: also if it fails, the old frames are alike, and if not, the new
PML4 is made for the source. -/
theorem pagingCloneCow_spec {src : ℕ} (hsrc : UsedBelow s 3 src) :
    Copied pl s s (pagingCloneCow pl s src).1 0 [] ∧
      ((pagingCloneCow pl s src).2 ≠ 0 →
        ∃ own, MadeFor pl s (pagingCloneCow pl s src).1 own src (pagingCloneCow pl s src).2) := by
  have hstart : Copied pl s s s 0 [] := .refl s
  unfold pagingCloneCow pagingCreatePml4
  split_ifs with hzero
  · exact ⟨hstart, fun hne => absurd rfl hne⟩
  rcases copied_allocZeroedPage hstart with ⟨s₁, hfail, hcopied⟩ |
    ⟨s₁, c, halloc, -, hnew, -, hc, hzeroed, hcopied⟩
  · rw [hfail]
    exact ⟨hcopied, fun hne => absurd rfl hne⟩
  simp only [halloc]
  obtain ⟨hclone, hdone⟩ := clonesTree_pml4 pl s [] s₁ src (c + 1) hcopied hsrc hnew hc hzeroed
  have hall := hcopied.then hclone
  generalize clonePml4 pl src (c + 1) s₁ = r at hclone hdone hall ⊢
  obtain ⟨s₂, _ | _⟩ := r
  · exact ⟨hall, fun hne => absurd rfl hne⟩
  obtain ⟨own, hmirrors⟩ := hdone rfl
  refine ⟨hall, fun _ => ⟨update own (c + 1) [], hnew, hclone.takes _ hc,
    update_self _ _ _, fun i => ?_⟩⟩
  have hstay : Copied pl s s₂ s₂ (c + 1) [] := .refl s₂
  have hown : ∀ f, s₁.free f = true → s₂.free f = false →
      update own (c + 1) [] f = own f :=
    fun f hf _ => update_of_ne (Machine.ne_of_free hc hf).symm _ _
  exact (hmirrors i).later hstay hcopied.takes hcopied.takes hc hown
    (Mirrors.later hstay hcopied.takes hcopied.takes hc hown) hsrc rfl

/-! ## All address spaces -/

/-- The tables are in order and no user page can be written while another address space
sees its frame. -/
structure Inv (pl : Platform) (s : Machine) (roots : List ℕ) : Prop where
  tables : Tables s roots
  isolated : Isolated (userPage s roots) fun f => refcountIsShared pl s f = true

variable {roots roots' : List ℕ} {src dst r : ℕ} {q : Path} {pg : Page ℕ}

/-- A frame stays shared when the counts do not fall. -/
theorem refcountIsShared_mono (h : ∀ f, s.refs f ≤ s'.refs f) {f : ℕ}
    (hf : refcountIsShared pl s f = true) : refcountIsShared pl s' f = true := by
  rw [refcountIsShared_iff] at hf ⊢
  exact ⟨hf.1, lt_of_lt_of_le hf.2 (h f)⟩

/-- The invariant stays when the entries do, no frame becomes free and no count falls. -/
theorem Inv.of_same (h : Inv pl s roots) (hsame : SameEntries s s' roots)
    (hfree : ∀ f, s.free f = false → s'.free f = false) (hrefs : ∀ f, s.refs f ≤ s'.refs f) :
    Inv pl s' roots where
  tables := h.tables.of_same hsame hfree
  isolated := by
    rw [userPage_of_same hsame]
    exact h.isolated.mono (fun hk => hk) fun _ hf => refcountIsShared_mono hrefs hf

/-- The user pages of the source can all be shared: none is copy-on-write already, and their
frames have a reference count and are outside the kernel image. -/
def CanClone (pl : Platform) (s : Machine) (src : ℕ) : Prop :=
  ∀ q pg, userPage s [src] (src, q) = some pg →
    pg.writable = true ∧ pg.frame < pl.maxFrames ∧ isKernel pl pg.frame = false

/-- In the lower half the clone copies no entry of an upper table: there are no large pages. -/
theorem Tables.keepAt_eq (h : Tables s roots) (ht : IsTable s roots r p t) (hk : k + p.length = 2)
    (hpresent : (s.mem t i).present = true) :
    keepAt (k + 1) i (s.mem t i) = false ↔ Lower (i :: p) := by
  cases p with
  | nil =>
    obtain rfl : k = 2 := by simpa using hk
    simp [keepAt, Lower]
  | cons j p =>
    rw [List.length_cons] at hk
    rw [keepAt, if_neg (by omega), h.noPs ht (by simp) (by rw [List.length_cons]; omega) i hpresent]
    exact iff_of_true rfl (ht.lower.cons (by simp) i)

theorem Tables.usedBelow (h : Tables s roots) (ht : IsTable s roots r p t)
    (hk : k + p.length = 3) : UsedBelow s k t := by
  induction k generalizing p t with
  | zero => exact h.alloc ht
  | succ k ih =>
    refine ⟨h.alloc ht, fun i hpresent hkeep => ih (p := i :: p) ⟨ht.root, ?_, ?_, ?_⟩ ?_⟩
    · rw [List.length_cons]
      omega
    · exact (h.keepAt_eq ht (by omega) hpresent).mp hkeep
    · exact tableAt_cons_eq_some.mpr ⟨t, ht.eq, hpresent, rfl⟩
    · rw [List.length_cons]
      omega

/-- The new table at a path is made for the old table there. -/
theorem Mirrors.tableAt (hm : Mirrors pl s s s' own 3 [] src dst) (h : Tables s roots)
    (hsrc : src ∈ roots) (hp : p.length ≤ 3) (hlow : Lower p) (hc : tableAt s' dst p = some c) :
    ∃ t, IsTable s roots src p t ∧ Mirrors pl s s s' own (3 - p.length) p t c ∧
      (p = [] ∧ c = dst ∨ s.free c = true ∧ s'.free c = false ∧ own c = p) := by
  induction p generalizing c with
  | nil =>
    cases hc
    exact ⟨src, ⟨hsrc, hp, hlow, rfl⟩, hm, .inl ⟨rfl, rfl⟩⟩
  | cons i p ih =>
    rw [List.length_cons] at hp
    obtain ⟨c', hc', hpresent, rfl⟩ := tableAt_cons_eq_some.mp hc
    obtain ⟨t, ht, hmirrors, -⟩ := ih (by omega) hlow.tail hc'
    obtain ⟨k, hk⟩ : ∃ k, 3 - p.length = k + 1 := ⟨2 - p.length, by omega⟩
    rw [hk] at hmirrors
    have hi := hmirrors i
    unfold EntryOk at hi
    split_ifs at hi with hold hkeep
    · rw [(h.keepAt_eq ht (by omega) hold).mpr hlow] at hkeep
      cases hkeep
    · obtain ⟨-, -, hfree, hused, hown, hbelow⟩ := hi
      refine ⟨(s.mem t i).frame, ⟨hsrc, by simpa using hp, hlow, ?_⟩, ?_,
        .inr ⟨hfree, hused, hown⟩⟩
      · exact tableAt_cons_eq_some.mpr ⟨t, ht.eq, hold, rfl⟩
      · rwa [List.length_cons, show 3 - (p.length + 1) = k by omega]
    · rw [hi] at hpresent
      cases hpresent

/-- The tables of the old address spaces stay where they are. -/
theorem Copied.tableAt_eq (hcopied : Copied pl s s s' 0 []) (h : Tables s roots) (hr : r ∈ roots)
    (hq : q.length ≤ 4) (hlow : Lower q) : tableAt s' r q = tableAt s r q := by
  induction q with
  | nil => rfl
  | cons i q ih =>
    rw [List.length_cons] at hq
    rw [tableAt, tableAt, ih (by omega) hlow.tail]
    refine Option.bind_congr fun t ht => ?_
    obtain ⟨hpresent, hframe, -, -⟩ :=
      (hcopied.alike t (h.alloc ⟨hr, by omega, hlow.tail, ht⟩) i).keeps
    rw [hpresent, hframe]

section Clone

variable (h : Inv pl s roots) (hsrc : src ∈ roots) (hcopied : Copied pl s s s' 0 [])
  (hroots : ∀ r ∈ roots', r ∈ roots ∨ r = dst ∧ MadeFor pl s s' own src dst)
include h hsrc hcopied hroots

/-- A table is an old one, or a new one at the path of an old one of the source. -/
theorem IsTable.of_copied (ht : IsTable s' roots' r p t) :
    IsTable s roots r p t ∨ r ∉ roots ∧ r = dst ∧ s.free t = true ∧ s'.free t = false ∧ own t = p ∧
      ∃ t₀, IsTable s roots src p t₀ ∧ Mirrors pl s s s' own (3 - p.length) p t₀ t := by
  obtain ⟨hr, hp, hlow, ht⟩ := ht
  by_cases hold : r ∈ roots
  · rw [hcopied.tableAt_eq h.tables hold (by omega) hlow] at ht
    exact .inl ⟨hold, hp, hlow, ht⟩
  · obtain ⟨rfl, hfree, hused, hown, hm⟩ := (hroots r hr).resolve_left hold
    obtain ⟨t₀, ht₀, hmirrors, ⟨rfl, rfl⟩ | ⟨hfree', hused', hown'⟩⟩ :=
      hm.tableAt h.tables hsrc hp hlow ht
    · exact .inr ⟨hold, rfl, hfree, hused, hown, t₀, ht₀, hmirrors⟩
    · exact .inr ⟨hold, rfl, hfree', hused', hown', t₀, ht₀, hmirrors⟩

/-- A user page is one of before, of its address space or of the source. -/
theorem userPage_of_copied (hpg : userPage s' roots' (r, q) = some pg) :
    ∃ pg₀, userPage s roots (if r ∈ roots then r else src, q) = some pg₀ ∧
      pg₀.frame = pg.frame ∧ (pg.writable = true → pg₀.writable = true) := by
  obtain ⟨i, p, c, rfl, hp, hlow, hc, hpage⟩ := userPage_eq_some.mp hpg
  have halike : ∃ t, IsTable s roots (if r ∈ roots then r else src) p t ∧
      Alike pl s' (s.mem t i) (s'.mem c i) := by
    rcases hc.of_copied h hsrc hcopied hroots with hold | ⟨hr, -, -, -, -, t, ht, hm⟩
    · rw [if_pos hold.root]
      exact ⟨c, hold, hcopied.alike c (h.tables.alloc hold) i⟩
    · rw [hp] at hm
      have hleaf := hm i
      unfold LeafOk at hleaf
      split_ifs at hleaf
      · rw [if_neg hr]
        exact ⟨t, ht, hleaf.1⟩
      · simp [pageOf, hleaf] at hpage
  obtain ⟨t, ht, halike⟩ := halike
  obtain ⟨hpresent, hframe, -, huser⟩ := halike.keeps
  rw [pageOf, hpresent, huser, hframe] at hpage
  split_ifs at hpage with hon
  cases hpage
  refine ⟨⟨(s.mem t i).frame, (s.mem t i).rw⟩, userPage_eq_some.mpr ⟨i, p, t, rfl, hp, hlow, ht,
    if_pos hon⟩, rfl, fun hw => ?_⟩
  rcases halike with heq | ⟨heq, -⟩ <;> rw [heq] at hw
  · exact hw
  · simp at hw

/-- A new user page and its original are copy-on-write, and the original was writable. -/
theorem twin_of_copied (hclone : CanClone pl s src) {pg' : Page ℕ} (hr : r ∉ roots)
    (hpg : userPage s' roots' (r, q) = some pg) (hpg' : userPage s' roots' (src, q) = some pg') :
    pg.writable = false ∧ pg' = pg ∧ refcountIsShared pl s' pg.frame = true ∧
      ∀ pg₀, userPage s roots (src, q) = some pg₀ → pg₀.writable = true := by
  obtain ⟨i, p, c, rfl, hp, hlow, hc, hpage⟩ := userPage_eq_some.mp hpg
  obtain ⟨j, p', t', heq, -, -, ht', hpage'⟩ := userPage_eq_some.mp hpg'
  obtain ⟨rfl, rfl⟩ := List.cons.inj heq
  rcases hc.of_copied h hsrc hcopied hroots with hold | ⟨-, -, -, -, -, t, ht, hm⟩
  · exact absurd hold.root hr
  rcases ht'.of_copied h hsrc hcopied hroots with hold | ⟨hnot, -⟩
  swap
  · exact absurd hsrc hnot
  obtain rfl : t = t' := Option.some.inj (ht.eq.symm.trans hold.eq)
  rw [hp] at hm
  have hleaf := hm i
  unfold LeafOk at hleaf
  split_ifs at hleaf with hpresent
  swap
  · simp [pageOf, hleaf] at hpage
  have huser : (s.mem t i).user = true := by
    rw [pageOf, Option.ite_none_right_eq_some] at hpage
    rw [← hleaf.1.keeps.2.2.2]
    exact (Bool.and_eq_true_iff.mp hpage.1).2
  have hpage₀ : pageOf (s.mem t i) = some ⟨(s.mem t i).frame, (s.mem t i).rw⟩ := by
    simp [pageOf, hpresent, huser]
  have hold₀ : userPage s roots (src, i :: p) = some ⟨(s.mem t i).frame, (s.mem t i).rw⟩ :=
    userPage_eq_some.mpr ⟨i, p, t, rfl, hp, hlow, ht, hpage₀⟩
  have hsame : userPage s [src] (src, i :: p) = userPage s roots (src, i :: p) := by
    simp [userPage, hsrc]
  obtain ⟨hw, hmax, hk⟩ := hclone _ _ (hsame.trans hold₀)
  obtain ⟨hmark, hmark', hcount⟩ := hleaf.2 hw hk
  rw [hmark'] at hpage
  rw [hmark] at hpage'
  simp only [pageOf, present_markCow, user_markCow, hpresent, huser, Bool.and_self, if_true,
    Option.some.injEq, rw_markCow, frame_markCow] at hpage hpage'
  obtain ⟨rfl, rfl⟩ := And.intro hpage hpage'
  refine ⟨rfl, rfl, refcountIsShared_iff.mpr ⟨hmax, hcount hmax⟩, fun pg₀ hpg₀ => ?_⟩
  obtain rfl := Option.some.inj (hold₀.symm.trans hpg₀)
  exact hw

theorem Tables.of_copied : Tables s' roots' where
  alloc ht := by
    rcases ht.of_copied h hsrc hcopied hroots with hold | ⟨-, -, -, hused, -⟩
    · exact hcopied.takes _ (h.tables.alloc hold)
    · exact hused
  inj ht ht' := by
    rcases ht.of_copied h hsrc hcopied hroots with hold | ⟨-, hr, hfree, -, hown, -⟩ <;>
      rcases ht'.of_copied h hsrc hcopied hroots with hold' | ⟨-, hr', hfree', -, hown', -⟩
    · exact h.tables.inj hold hold'
    · simp [h.tables.alloc hold] at hfree'
    · simp [h.tables.alloc hold'] at hfree
    · exact ⟨hr.trans hr'.symm, hown.symm.trans hown'⟩
  noPs {r p t} ht hne hp i hpresent := by
    rcases ht.of_copied h hsrc hcopied hroots with hold | ⟨-, -, -, -, -, t₀, ht₀, hm⟩
    · obtain ⟨hp', -, hps, -⟩ := (hcopied.alike t (h.tables.alloc hold) i).keeps
      rw [hps]
      exact h.tables.noPs hold hne hp i (hp' ▸ hpresent)
    · obtain ⟨k, hk⟩ : ∃ k, 3 - p.length = k + 1 := ⟨2 - p.length, by omega⟩
      rw [hk] at hm
      have hi := hm i
      unfold EntryOk at hi
      split_ifs at hi with hold hkeep
      · rw [hi.keeps.2.2.1]
        exact h.tables.noPs ht₀ hne hp i hold
      · rw [hi.2.1]
        exact h.tables.noPs ht₀ hne hp i hold
      · rw [hi] at hpresent
        cases hpresent
  data {k pg} hpg := by
    obtain ⟨pg₀, hpg₀, hframe, -⟩ := userPage_of_copied h hsrc hcopied hroots hpg
    obtain ⟨hused, hnot⟩ := h.tables.data hpg₀
    rw [← hframe]
    refine ⟨hcopied.takes _ hused, fun r p ht => ?_⟩
    rcases ht.of_copied h hsrc hcopied hroots with hold | ⟨-, -, hfree, -⟩
    · exact hnot r p hold
    · simp [hused] at hfree

/-- The clone keeps the invariant. -/
theorem Inv.of_copied (hclone : CanClone pl s src) : Inv pl s' roots' := by
  have hroot : ∀ {r q pg}, userPage s' roots' (r, q) = some pg → r ∈ roots ∨ r = dst := by
    intro r q pg hpg
    obtain ⟨_, _, _, -, -, -, ht, -⟩ := userPage_eq_some.mp hpg
    exact (hroots r ht.root).imp_right fun hmade => hmade.1
  refine ⟨Tables.of_copied h hsrc hcopied hroots,
    h.isolated.copy (fun k => (if k.1 ∈ roots then k.1 else src, k.2)) ?_ ?_ ?_⟩
  · intro k pg hpg
    obtain ⟨pg₀, hpg₀, hframe, hw⟩ := userPage_of_copied h hsrc hcopied hroots hpg
    exact ⟨pg₀, hpg₀, hframe, hw, fun hf => refcountIsShared_mono hcopied.refs hf⟩
  · rintro ⟨r, q⟩ ⟨r', q'⟩ pg pg' hne heq hpg hpg'
    obtain ⟨heq, rfl⟩ := Prod.mk.inj heq
    dsimp only at heq
    split_ifs at heq with hr hr' hr'
    · exact absurd (by rw [heq]) hne
    · subst heq
      obtain ⟨hw, rfl, hshared, hold⟩ := twin_of_copied h hsrc hcopied hroots hclone hr' hpg' hpg
      simp only [hr, if_true]
      exact ⟨hw, hshared, hold⟩
    · subst heq
      obtain ⟨hw, rfl, hshared, hold⟩ := twin_of_copied h hsrc hcopied hroots hclone hr hpg hpg'
      simp only [hr, if_false]
      exact ⟨hw, hshared, hold⟩
    · have hsame := ((hroot hpg).resolve_left hr).trans ((hroot hpg').resolve_left hr').symm
      exact absurd (by rw [hsame]) hne
  · rintro ⟨r, q⟩ ⟨r', q'⟩ ⟨r'', q''⟩ pg pg' pg'' hpg hpg' hpg'' heq heq'
    obtain ⟨heq, rfl⟩ := Prod.mk.inj heq
    obtain ⟨heq', rfl⟩ := Prod.mk.inj heq'
    grind

end Clone

/-- `paging_clone_cow` keeps the invariant, with the new address space if there is one. -/
theorem Inv.pagingCloneCow (h : Inv pl s roots) (hsrc : src ∈ roots) (hclone : CanClone pl s src) :
    Inv pl (Memory.pagingCloneCow pl s src).1 roots ∧
      ((Memory.pagingCloneCow pl s src).2 ≠ 0 →
        Inv pl (Memory.pagingCloneCow pl s src).1
          (roots ++ [(Memory.pagingCloneCow pl s src).2])) := by
  have hused : UsedBelow s 3 src := h.tables.usedBelow ⟨hsrc, by simp, lower_nil, rfl⟩ rfl
  obtain ⟨hcopied, hdone⟩ := @pagingCloneCow_spec pl s src hused
  refine ⟨h.of_copied hsrc hcopied (show ∀ r ∈ roots, r ∈ roots ∨ r = 0 ∧
    MadeFor pl s _ (fun _ => []) src 0 from fun r hr => .inl hr) hclone, fun hne => ?_⟩
  obtain ⟨own, hmade⟩ := hdone hne
  exact h.of_copied hsrc hcopied (fun r hr => (List.mem_append.mp hr).imp_right fun hr =>
    ⟨List.mem_singleton.mp hr, hmade⟩) hclone

end Tomahawk.Memory
