import Tomahawk.Fat32.Files

/-!
# The tree of a FAT32 volume

Directories are reached from the root directory through the entries they list. The root
directory and every live entry own the chain of their start cluster, and a volume is intact when
chains of different owners share no cluster. Two lemmas say how a volume stays intact: when
chains are extended or other clusters change, and when one slot of a directory changes.
-/

namespace Tomahawk.Fat32

open Tomahawk.Lib

/-- The start cluster of an entry. -/
def Live.cluster (e : Live) : ℕ := direntCluster e.de

/-- The entry of the directory itself or of its parent. -/
def Live.IsDot (e : Live) : Prop := dirName e.de = dotName ∨ dirName e.de = dotDotName

instance (e : Live) : Decidable e.IsDot := instDecidableOr

/-- The entry of a directory below. -/
structure Live.IsSub (e : Live) : Prop where
  isDir : isDirAttr (dirAttr e.de) = true
  notDot : ¬ e.IsDot
  cluster : e.cluster ≠ 0

/-- The start clusters of the directories that are reached from the root. -/
inductive LiveDir (v : Volume) : ℕ → Prop
  | root : LiveDir v v.geo.rootCluster
  | sub {d : ℕ} {l : List ℕ} {e : Live} : LiveDir v d → v.Chain d l → e ∈ listing v l → e.IsSub →
      LiveDir v e.cluster

/-- What a chain belongs to: the root directory, or the entry in a slot of a directory. -/
inductive Owner where
  | root
  | entry (dir pos : ℕ)
  deriving DecidableEq

/-- The start clusters of the owners. Entries for `.` and `..` own nothing, and neither does a
file without clusters. -/
inductive Owns (v : Volume) : Owner → ℕ → Prop
  | root : Owns v .root v.geo.rootCluster
  | entry {d : ℕ} {l : List ℕ} {e : Live} : LiveDir v d → v.Chain d l → e ∈ listing v l →
      ¬ e.IsDot → e.cluster ≠ 0 → Owns v (.entry d e.pos) e.cluster

/-- Every owner has a chain, which ends and has no free cluster, different owners share no
cluster, and directories have only free slots behind their end mark. -/
structure Intact (v : Volume) : Prop where
  chain : ∀ {o : Owner} {c : ℕ}, Owns v o c → ∃ l, v.Chain c l ∧ l ≠ []
  disjoint : ∀ {o o' : Owner} {c c' : ℕ} {l l' : List ℕ}, Owns v o c → Owns v o' c' → o ≠ o' →
    v.Chain c l → v.Chain c' l' → l.Disjoint l'
  tail : ∀ {d : ℕ} {l : List ℕ}, LiveDir v d → v.Chain d l → ZeroTail (dirSlots v l)

variable {v v' : Volume} {c d p x : ℕ} {o : Owner} {l t : List ℕ}

/-! ## Owners -/

/-- A directory has an owner that is not one of its own entries. -/
theorem LiveDir.owns (h : LiveDir v d) : ∃ o, Owns v o d ∧ ∀ p, o ≠ .entry d p := by
  induction h with
  | root => exact ⟨.root, .root, by simp⟩
  | @sub d l e hd hl he hsub ih =>
    by_cases heq : d = e.cluster
    · rw [← heq]
      exact ih
    · exact ⟨.entry d e.pos, .entry hd hl he hsub.notDot hsub.cluster,
        fun p hp => heq (Owner.entry.inj hp).1⟩

theorem Intact.dirChain (h : Intact v) (hd : LiveDir v d) : ∃ l, v.Chain d l ∧ l ≠ [] := by
  obtain ⟨o, ho, -⟩ := hd.owns
  exact h.chain ho

/-- Entries in the same slot are the same entry. -/
theorem eq_of_pos_eq {e e' : Live} (h : e ∈ listing v l) (h' : e' ∈ listing v l)
    (hpos : e.pos = e'.pos) : e = e' := by
  obtain ⟨as, bs, hslots, has, -, -, hname⟩ := mem_reported h
  obtain ⟨as', bs', hslots', has', -, -, hname'⟩ := mem_reported h'
  obtain ⟨rfl, hcons⟩ := List.append_inj (hslots.symm.trans hslots') (by omega)
  have hde : e.de = e'.de := (List.cons.inj hcons).1
  rw [← hde, ← hname] at hname'
  obtain ⟨pos, name, de⟩ := e
  obtain ⟨pos', name', de'⟩ := e'
  simp only at hpos hde hname'
  rw [hpos, hde, hname']

/-- An owner has one start cluster. -/
theorem Owns.unique {c' : ℕ} (h : Owns v o c) (h' : Owns v o c') (hsound : v.geo.Sound) :
    c = c' := by
  cases h with
  | root =>
    cases h'
    rfl
  | @entry d l e hd hl he hdot hc =>
    generalize ho : Owner.entry d e.pos = o at h'
    cases h' with
    | root => cases ho
    | @entry d' l' e' hd' hl' he' hdot' hc' =>
      obtain ⟨rfl, hpos⟩ := Owner.entry.inj ho
      obtain rfl := hl.unique hl' hsound
      rw [eq_of_pos_eq he he' hpos]

/-- Different directories share no cluster. -/
theorem Intact.dirs_disjoint {d' : ℕ} {l' : List ℕ} (h : Intact v) (hsound : v.geo.Sound)
    (hd : LiveDir v d) (hd' : LiveDir v d') (hne : d ≠ d') (hl : v.Chain d l)
    (hl' : v.Chain d' l') : l.Disjoint l' := by
  obtain ⟨o, ho, -⟩ := hd.owns
  obtain ⟨o', ho', -⟩ := hd'.owns
  refine h.disjoint ho ho' (fun heq => hne ?_) hl hl'
  subst heq
  exact ho.unique ho' hsound

/-! ## Chains that grow -/

/-- The volumes have the same directories and owners. -/
structure SameTree (v v' : Volume) : Prop where
  liveDir : ∀ d, LiveDir v' d ↔ LiveDir v d
  owns : ∀ o c, Owns v' o c ↔ Owns v o c
  listing : ∀ d l, LiveDir v d → v.Chain d l → ∃ l', v'.Chain d l' ∧ listing v' l' = listing v l

/-- The chain of an owner of `v` after a step, with the same entries. -/
structure ChainKept (v v' : Volume) (c : ℕ) (l l' : List ℕ) : Prop where
  chain : v'.Chain c l'
  nonempty : l' ≠ []
  listing : LiveDir v c → Fat32.listing v' l' = Fat32.listing v l
  tail : LiveDir v c → ZeroTail (dirSlots v' l')

/-- Where the directories list the same entries, those of `v` are directories of `v'` too. -/
theorem LiveDir.of_listing (hgeo : v'.geo = v.geo) (hsound : v.geo.Sound)
    (hdir : ∀ d, LiveDir v d → LiveDir v' d → ∃ l l', v.Chain d l ∧ v'.Chain d l' ∧
      listing v' l' = listing v l) :
    (∀ d, LiveDir v d → LiveDir v' d) ∧ ∀ o c, Owns v o c → Owns v' o c := by
  have hentry : ∀ {d l e}, LiveDir v d → LiveDir v' d → v.Chain d l → e ∈ listing v l →
      ∃ l', v'.Chain d l' ∧ e ∈ listing v' l' := by
    intro d l e hd hd' hl he
    obtain ⟨l₀, l', hl₀, hl', hlisting⟩ := hdir d hd hd'
    rw [hl.unique hl₀ hsound, ← hlisting] at he
    exact ⟨l', hl', he⟩
  have hlive : ∀ d, LiveDir v d → LiveDir v' d := by
    intro d hd
    induction hd with
    | root =>
      rw [← hgeo]
      exact .root
    | sub hd hl he hsub ih =>
      obtain ⟨l', hl', he'⟩ := hentry hd ih hl he
      exact .sub ih hl' he' hsub
  refine ⟨hlive, fun o c h => ?_⟩
  cases h with
  | root =>
    rw [← hgeo]
    exact .root
  | entry hd hl he hdot hc =>
    obtain ⟨l', hl', he'⟩ := hentry hd (hlive _ hd) hl he
    exact .entry (hlive _ hd) hl' he' hdot hc

section

variable (hi : Intact v) (hsound : v.geo.Sound)
include hi hsound

theorem sameTree_of_kept (hgeo : v'.geo = v.geo)
    (hkept : ∀ o c l, Owns v o c → v.Chain c l → ∃ l', ChainKept v v' c l l') : SameTree v v' := by
  have hdir : ∀ d, LiveDir v d → ∃ l l', v.Chain d l ∧ v'.Chain d l' ∧
      listing v' l' = listing v l := by
    intro d hd
    obtain ⟨o, ho, -⟩ := hd.owns
    obtain ⟨l, hl, -⟩ := hi.chain ho
    obtain ⟨l', hl'⟩ := hkept o d l ho hl
    exact ⟨l, l', hl, hl'.chain, hl'.listing hd⟩
  obtain ⟨hforth, hforth'⟩ := LiveDir.of_listing hgeo hsound fun d hd _ => hdir d hd
  obtain ⟨hback, hback'⟩ := LiveDir.of_listing hgeo.symm (hgeo ▸ hsound) fun d _ hd => by
    obtain ⟨l, l', hl, hl', hlisting⟩ := hdir d hd
    exact ⟨l', l, hl', hl, hlisting.symm⟩
  refine ⟨fun d => ⟨hback d, hforth d⟩, fun o c => ⟨hback' o c, hforth' o c⟩, fun d l hd hl => ?_⟩
  obtain ⟨l₀, l', hl₀, hl', hlisting⟩ := hdir d hd
  rw [hl.unique hl₀ hsound]
  exact ⟨l', hl', hlisting⟩

/-- The chain of an owner that the step does not touch. -/
theorem Intact.chainKept (hk : Keeps v v' t) (ho : Owns v o c) (hl : v.Chain c l)
    (hdisj : l.Disjoint t) : ChainKept v v' c l l := by
  obtain ⟨hl', hdata⟩ := hk.chain c l hl hdisj
  have hslots := dirSlots_congr hk.geo hdata
  obtain ⟨l₀, hl₀, hne⟩ := hi.chain ho
  obtain rfl := hl.unique hl₀ hsound
  refine ⟨hl', hne, fun _ => ?_, fun hd => ?_⟩
  · rw [Fat32.listing, hslots]
    rfl
  · rw [hslots]
    exact hi.tail hd hl

/-- A step that touches `t` keeps the volume intact when `t` is apart from the chains of all
owners but at most one, and the chain of that one grows by free clusters at most. -/
theorem Intact.keeps (hk : Keeps v v' t) (grows : Owner → Prop)
    (hone : ∀ o₁ o₂, grows o₁ → grows o₂ → o₁ = o₂)
    (hother : ∀ o c l, ¬ grows o → Owns v o c → v.Chain c l → l.Disjoint t)
    (hself : ∀ o c l, grows o → Owns v o c → v.Chain c l → ∃ l', ChainKept v v' c l l' ∧
      ∀ x ∈ l', x ∈ l ∨ x ∈ t ∨ v.fat x = 0) :
    Intact v' ∧ SameTree v v' ∧
      ∀ o c l, ¬ grows o → Owns v' o c → v'.Chain c l → v.Chain c l := by
  have hsound' : v'.geo.Sound := hk.geo ▸ hsound
  have hkept : ∀ o' c l, Owns v o' c → v.Chain c l → ∃ l', ChainKept v v' c l l' ∧
      (¬ grows o' → l' = l) ∧ ∀ x ∈ l', x ∈ l ∨ x ∈ t ∨ v.fat x = 0 := by
    intro o' c l ho' hl
    by_cases heq : grows o'
    · obtain ⟨l', hl', hsub⟩ := hself o' c l heq ho' hl
      exact ⟨l', hl', fun hne => absurd heq hne, hsub⟩
    · exact ⟨l, hi.chainKept hsound hk ho' hl (hother o' c l heq ho' hl), fun _ => rfl,
        fun x hx => .inl hx⟩
  have hsame := sameTree_of_kept hi hsound hk.geo fun o' c l ho' hl => by
    obtain ⟨l', hl', -⟩ := hkept o' c l ho' hl
    exact ⟨l', hl'⟩
  refine ⟨⟨fun {o' c} ho' => ?_, fun {o₁ o₂ c₁ c₂ l₁ l₂} ho₁ ho₂ hne hl₁ hl₂ => ?_,
    fun {d l} hd hl => ?_⟩, hsame, fun o' c l hne ho' hl => ?_⟩
  · obtain ⟨l, hl, -⟩ := hi.chain ((hsame.owns o' c).mp ho')
    obtain ⟨l', hl', -⟩ := hkept o' c l ((hsame.owns o' c).mp ho') hl
    exact ⟨l', hl'.chain, hl'.nonempty⟩
  · have howns₁ := (hsame.owns o₁ c₁).mp ho₁
    have howns₂ := (hsame.owns o₂ c₂).mp ho₂
    obtain ⟨k₁, hk₁, -⟩ := hi.chain howns₁
    obtain ⟨k₂, hk₂, -⟩ := hi.chain howns₂
    obtain ⟨k₁', hk₁', hsame₁, hsub₁⟩ := hkept o₁ c₁ k₁ howns₁ hk₁
    obtain ⟨k₂', hk₂', hsame₂, hsub₂⟩ := hkept o₂ c₂ k₂ howns₂ hk₂
    obtain rfl := hl₁.unique hk₁'.chain hsound'
    obtain rfl := hl₂.unique hk₂'.chain hsound'
    have hdisj := hi.disjoint howns₁ howns₂ hne hk₁ hk₂
    -- At most one of the two owners is the one whose chain grows.
    by_cases heq : grows o₁
    · have hne₂ : ¬ grows o₂ := fun h => hne (hone o₁ o₂ heq h)
      rw [hsame₂ hne₂]
      intro y hy hy'
      rcases hsub₁ y hy with hmem | hmem | hfree
      · exact hdisj hmem hy'
      · exact hother o₂ c₂ k₂ hne₂ howns₂ hk₂ hy' hmem
      · exact hk₂.fat_ne_zero hy' hfree
    · rw [hsame₁ heq]
      intro y hy hy'
      rcases hsub₂ y hy' with hmem | hmem | hfree
      · exact hdisj hy hmem
      · exact hother o₁ c₁ k₁ heq howns₁ hk₁ hy hmem
      · exact hk₁.fat_ne_zero hy hfree
  · have hd' := (hsame.liveDir d).mp hd
    obtain ⟨o', ho', -⟩ := hd'.owns
    obtain ⟨k, hk₀, -⟩ := hi.chain ho'
    obtain ⟨k', hk', -⟩ := hkept o' d k ho' hk₀
    obtain rfl := hl.unique hk'.chain hsound'
    exact hk'.tail hd'
  · have howns := (hsame.owns o' c).mp ho'
    obtain ⟨k, hk₀, -⟩ := hi.chain howns
    obtain ⟨k', hk', heq, -⟩ := hkept o' c k howns hk₀
    rw [hl.unique hk'.chain hsound', heq hne]
    exact hk₀

/-- The clusters of `k` are on the chain of no owner. -/
def Unowned (v : Volume) (k : List ℕ) : Prop :=
  ∀ o c l, Owns v o c → v.Chain c l → l.Disjoint k

/-- A step that touches no chain of an owner. -/
theorem Intact.keeps_apart (hk : Keeps v v' t) (hother : Unowned v t) :
    Intact v' ∧ SameTree v v' ∧ ∀ o c l, Owns v' o c → v'.Chain c l → v.Chain c l := by
  obtain ⟨hi', hsame, hchain⟩ := hi.keeps hsound hk (fun _ => False)
    (fun _ _ h => h.elim) (fun o c l _ => hother o c l) fun _ _ _ h => h.elim
  exact ⟨hi', hsame, fun o c l => hchain o c l id⟩

/-! ## A slot that changes -/

/-- What is asked of a new entry in the slot `p` of the directory `d`: its chain is apart from
those of the other owners, and a new directory has no entries of its own. -/
structure NewEntry (v : Volume) (d p : ℕ) (e : Live) (le : List ℕ) : Prop where
  chain : v.Chain e.cluster le
  nonempty : le ≠ []
  apart : ∀ o c l, o ≠ .entry d p → Owns v o c → v.Chain c l → l.Disjoint le
  empty : isDirAttr (dirAttr e.de) = true →
    (∀ e' ∈ listing v le, e'.IsDot) ∧ ZeroTail (dirSlots v le)

/-- The slot `p` of the directory `d` has changed, and `new` holds of the entry that may be
there now. -/
structure Patched (v v' : Volume) (d p : ℕ) (new : Live → Prop) : Prop where
  intact : Intact v'
  owns : ∀ o c, Owns v' o c → Owns v o c ∧ o ≠ .entry d p ∨
    o = .entry d p ∧ ∃ e, new e ∧ ¬ e.IsDot ∧ e.cluster ≠ 0 ∧ e.cluster = c
  dirs : ∀ d' l, LiveDir v' d' → v'.Chain d' l → d' ≠ d → v.Chain d' l ∧
    listing v' l = listing v l ∧ (LiveDir v d' ∨ ∃ e, new e ∧ e.IsSub ∧ e.cluster = d')

/-- A change of the slot `p` of a directory keeps the volume intact. -/
theorem Intact.patch (hd : LiveDir v d) (hl : v.Chain d l) (hx : x ∈ l) (ho : OnlyCluster v v' x)
    (new : Live → Prop)
    (hlist : ∀ e ∈ listing v' l, e ∈ listing v l ∧ e.pos ≠ p ∨ new e ∧ e.pos = p)
    (htail : ZeroTail (dirSlots v' l))
    (hnew : ∀ e, new e → ¬ e.IsDot → e.cluster ≠ 0 → ∃ le, NewEntry v d p e le) :
    Patched v v' d p new := by
  have hback : ∀ {c k}, v'.Chain c k → v.Chain c k := fun hk => hk.of_onlyCluster ho
  -- The slots of clusters other than the one that was written.
  have hslots : ∀ {k : List ℕ}, x ∉ k → dirSlots v' k = dirSlots v k := fun hk =>
    dirSlots_congr ho.geo fun c hc => ho.data c fun heq => hk (heq ▸ hc)
  have hlisting : ∀ {k : List ℕ}, x ∉ k → listing v' k = listing v k := fun hk => by
    rw [listing, hslots hk]
    rfl
  obtain ⟨od, hod, hodne⟩ := hd.owns
  have hnotMem : ∀ {d' k}, LiveDir v d' → d' ≠ d → v.Chain d' k → x ∉ k := fun hd' hne hk hmem =>
    hi.dirs_disjoint hsound hd hd' (Ne.symm hne) hl hk hx hmem
  have hnotNew : ∀ {e le}, NewEntry v d p e le → x ∉ le := fun h hmem =>
    h.apart od d l (hodne p) hod hl hx hmem
  have hchain : ∀ {e k}, new e → ¬ e.IsDot → e.cluster ≠ 0 → v'.Chain e.cluster k →
      NewEntry v d p e k := by
    intro e k he hdot hc hk
    obtain ⟨le, hle⟩ := hnew e he hdot hc
    rwa [(hback hk).unique hle.chain hsound]
  -- An entry of a directory of `v` that is listed in `v'`.
  have hentry : ∀ {d' k e}, LiveDir v d' → v'.Chain d' k → e ∈ listing v' k →
      (e ∈ listing v k ∧ Owner.entry d' e.pos ≠ .entry d p) ∨
        (new e ∧ Owner.entry d' e.pos = .entry d p) := by
    intro d' k e hd' hk he
    by_cases heq : d' = d
    · subst heq
      obtain rfl := (hback hk).unique hl hsound
      rcases hlist e he with ⟨hmem, hpos⟩ | ⟨hnew', hpos⟩
      · exact .inl ⟨hmem, fun h => hpos (Owner.entry.inj h).2⟩
      · exact .inr ⟨hnew', by rw [hpos]⟩
    · rw [hlisting (hnotMem hd' heq (hback hk))] at he
      exact .inl ⟨he, fun h => heq (Owner.entry.inj h).1⟩
  have hlive : ∀ d', LiveDir v' d' → LiveDir v d' ∨ ∃ e, new e ∧ e.IsSub ∧ e.cluster = d' := by
    intro d' hd'
    induction hd' with
    | root =>
      rw [ho.geo]
      exact .inl .root
    | @sub d' k e hd' hk he hsub ih =>
      rcases ih with hold | ⟨e₀, he₀, hsub₀, rfl⟩
      · rcases hentry hold hk he with ⟨hmem, -⟩ | ⟨hnew', -⟩
        · exact .inl (.sub hold (hback hk) hmem hsub)
        · exact .inr ⟨e, hnew', hsub, rfl⟩
      · -- A new directory has no directories below it.
        have hle := hchain he₀ hsub₀.notDot hsub₀.cluster hk
        rw [hlisting (hnotNew hle)] at he
        exact absurd ((hle.empty hsub₀.isDir).1 e he) hsub.notDot
  have howns : ∀ o c, Owns v' o c → Owns v o c ∧ o ≠ .entry d p ∨
      o = .entry d p ∧ ∃ e, new e ∧ ¬ e.IsDot ∧ e.cluster ≠ 0 ∧ e.cluster = c := by
    intro o c h
    cases h with
    | root =>
      rw [ho.geo]
      exact .inl ⟨.root, by simp⟩
    | @entry d' k e hd' hk he hdot hc =>
      rcases hlive d' hd' with hold | ⟨e₀, he₀, hsub₀, rfl⟩
      · rcases hentry hold hk he with ⟨hmem, hne⟩ | ⟨hnew', heq⟩
        · exact .inl ⟨.entry hold (hback hk) hmem hdot hc, hne⟩
        · exact .inr ⟨heq, e, hnew', hdot, hc, rfl⟩
      · have hle := hchain he₀ hsub₀.notDot hsub₀.cluster hk
        rw [hlisting (hnotNew hle)] at he
        exact absurd ((hle.empty hsub₀.isDir).1 e he) hdot
  refine ⟨⟨fun {o c} h => ?_, fun {o₁ o₂ c₁ c₂ l₁ l₂} h₁ h₂ hne hl₁ hl₂ => ?_,
    fun {d' k} hd' hk => ?_⟩, howns, fun d' k hd' hk hne => ?_⟩
  · rcases howns o c h with ⟨h, -⟩ | ⟨-, e, he, hdot, hc, rfl⟩
    · obtain ⟨k, hk, hkne⟩ := hi.chain h
      exact ⟨k, hk.onlyCluster ho, hkne⟩
    · obtain ⟨le, hle⟩ := hnew e he hdot hc
      exact ⟨le, hle.chain.onlyCluster ho, hle.nonempty⟩
  · rcases howns o₁ c₁ h₁ with ⟨h₁, hne₁⟩ | ⟨rfl, e₁, he₁, hdot₁, hc₁, rfl⟩
    · rcases howns o₂ c₂ h₂ with ⟨h₂, -⟩ | ⟨rfl, e₂, he₂, hdot₂, hc₂, rfl⟩
      · exact hi.disjoint h₁ h₂ hne (hback hl₁) (hback hl₂)
      · have hle := hchain he₂ hdot₂ hc₂ hl₂
        exact hle.apart o₁ c₁ l₁ hne₁ h₁ (hback hl₁)
    · rcases howns o₂ c₂ h₂ with ⟨h₂, hne₂⟩ | ⟨rfl, -⟩
      · have hle := hchain he₁ hdot₁ hc₁ hl₁
        exact (hle.apart o₂ c₂ l₂ hne₂ h₂ (hback hl₂)).symm
      · exact absurd rfl hne
  · rcases hlive d' hd' with hold | ⟨e₀, he₀, hsub₀, rfl⟩
    · by_cases heq : d' = d
      · subst heq
        obtain rfl := (hback hk).unique hl hsound
        exact htail
      · rw [hslots (hnotMem hold heq (hback hk))]
        exact hi.tail hold (hback hk)
    · have hle := hchain he₀ hsub₀.notDot hsub₀.cluster hk
      rw [hslots (hnotNew hle)]
      exact (hle.empty hsub₀.isDir).2
  · rcases hlive d' hd' with hold | ⟨e₀, he₀, hsub₀, rfl⟩
    · exact ⟨hback hk, hlisting (hnotMem hold hne (hback hk)), .inl hold⟩
    · have hle := hchain he₀ hsub₀.notDot hsub₀.cluster hk
      exact ⟨hle.chain, hlisting (hnotNew hle), .inr ⟨e₀, he₀, hsub₀, rfl⟩⟩

/-- Directories stay when no entry of a directory is lost. -/
theorem LiveDir.patch {a : ℕ} (ha : LiveDir v a) (hd : LiveDir v d) (hl : v.Chain d l) (hx : x ∈ l)
    (ho : OnlyCluster v v' x) (hkeep : ∀ e ∈ listing v l, e.IsSub → e ∈ listing v' l) :
    LiveDir v' a := by
  induction ha with
  | root =>
    rw [← ho.geo]
    exact .root
  | @sub d' k e hd' hk he hsub ih =>
    refine .sub ih (hk.onlyCluster ho) ?_ hsub
    by_cases heq : d' = d
    · subst heq
      obtain rfl := hk.unique hl hsound
      exact hkeep e he hsub
    · have hnot : x ∉ k := hi.dirs_disjoint hsound hd hd' (Ne.symm heq) hl hk hx
      rw [listing, dirSlots_congr ho.geo fun c hc => ho.data c fun h => hnot (h ▸ hc)]
      exact he

end

end Tomahawk.Fat32
