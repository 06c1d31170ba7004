import Tomahawk.Ramfs.Vnodes

/-!
# The lists of directory entries

The entries of each directory as a linked list, the search for a name in it, and what
taking an entry out and putting one in front do to the lists.
-/

namespace Tomahawk.Ramfs

open Function Tomahawk.Lib

variable {s s' : Fs} {bits : ℕ} {d e f v w : ℕ} {name n : CStr} {a : ℕ} {l : Link} {L b : List ℕ}

/-- A pointer, with `none` for null. -/
def ptr (a : ℕ) : Option ℕ := if a = 0 then none else some a

/-- The link of an entry as a pointer. -/
def Fs.nextPtr (s : Fs) (e : ℕ) : Option ℕ := ptr (s.entNext e)

theorem ptr_eq_some {b : ℕ} : ptr a = some b ↔ a = b ∧ a ≠ 0 := by
  unfold ptr
  split_ifs with h
  · simp [h]
  · simp [h]

theorem ptr_eq_none : ptr a = none ↔ a = 0 := by
  unfold ptr
  split_ifs with h
  · simp [h]
  · simp [h]

/-! ## Names -/

/-- The entry has the name, which fits in the name field. -/
structure Named (s : Fs) (e : ℕ) (n : CStr) : Prop where
  length : n.bytes.length ≤ 63
  eq : s.nameEq e n = true

/-- The comparison finds the name of an entry and no other. -/
theorem Named.nameEq_iff (h : Named s e n) : s.nameEq e name = true ↔ name = n := by
  constructor
  · intro heq
    have hbytes := Bytes.strEq_unique heq h.eq
    cases name
    cases n
    simpa using hbytes
  · rintro rfl
    exact h.eq

/-- The name lies in the first 64 bytes. -/
theorem Named.congr (h : Named s e n) (hbytes : ∀ k < 64, s'.ents e k = s.ents e k) :
    Named s' e n := by
  refine ⟨h.length, ?_⟩
  rw [← h.eq]
  refine Bytes.strEq_congr fun k _ hk => hbytes k ?_
  have := h.length
  omega

/-! ## Links -/

/-- The link to the entry that follows the entries `a` from the link `l` on. -/
def Link.after (l : Link) (a : List ℕ) : Link :=
  match a.getLast? with
  | none => l
  | some e => .next e

@[simp] theorem Link.after_nil (l : Link) : l.after [] = l := rfl

theorem Link.after_concat (l : Link) (e : ℕ) (a : List ℕ) : l.after (a ++ [e]) = .next e := by
  simp [after]

theorem Link.after_cons (l : Link) (e : ℕ) (a : List ℕ) :
    l.after (e :: a) = (Link.next e).after a := by
  rcases List.eq_nil_or_concat a with rfl | ⟨a, x, rfl⟩
  · rfl
  · rw [List.concat_eq_append, ← List.cons_append, after_concat, after_concat]

/-- The list from a link on. -/
def Fs.IsListAt (s : Fs) (l : Link) (L : List ℕ) : Prop := IsList s.nextPtr (ptr (s.load l)) L

theorem Fs.IsListAt.tail (h : s.IsListAt l (e :: L)) :
    s.load l = e ∧ e ≠ 0 ∧ s.IsListAt (.next e) L := by
  obtain ⟨hload, hnext⟩ := h
  obtain ⟨rfl, hne⟩ := ptr_eq_some.mp hload
  exact ⟨rfl, hne, hnext⟩

/-- The link after `a` holds the next entry. -/
theorem Fs.IsListAt.load_after {a : List ℕ} (h : s.IsListAt l (a ++ e :: b)) :
    s.load (l.after a) = e := by
  induction a generalizing l with
  | nil => exact h.tail.1
  | cons x a ih =>
    rw [Link.after_cons]
    exact ih h.tail.2.2

/-- The search finds the first entry with the name, or there is none. -/
theorem Fs.IsListAt.findLink (h : s.IsListAt l L) (name : CStr) {fuel : ℕ}
    (hfuel : L.length < fuel) :
    (s.findLink name fuel l = none ∧ ∀ e ∈ L, s.nameEq e name = false) ∨
      ∃ a e b, L = a ++ e :: b ∧ (∀ x ∈ a, s.nameEq x name = false) ∧ s.nameEq e name = true ∧
        s.findLink name fuel l = some (l.after a) := by
  induction L generalizing l fuel with
  | nil =>
    have hnull : s.load l = 0 := ptr_eq_none.mp h
    cases fuel with
    | zero => simp at hfuel
    | succ fuel => exact .inl ⟨by rw [Fs.findLink, if_pos hnull], by simp⟩
  | cons x L ih =>
    obtain ⟨rfl, hne, hnext⟩ := h.tail
    cases fuel with
    | zero => simp at hfuel
    | succ fuel =>
      rw [Fs.findLink, if_neg hne]
      by_cases hmatch : s.nameEq (s.load l) name = true
      · exact .inr ⟨[], _, L, rfl, by simp, hmatch, by rw [if_pos hmatch, Link.after_nil]⟩
      · rw [if_neg hmatch]
        have hfalse : s.nameEq (s.load l) name = false := by simpa using hmatch
        rcases ih hnext (Nat.lt_of_succ_lt_succ hfuel) with ⟨hnone, hall⟩ |
          ⟨a, e, b, rfl, hall, he, hsome⟩
        · exact .inl ⟨hnone, by simpa using ⟨hfalse, hall⟩⟩
        · refine .inr ⟨s.load l :: a, e, b, rfl, by simpa using ⟨hfalse, hall⟩, he, ?_⟩
          rw [hsome, Link.after_cons]

/-! ## Stores to links -/

theorem Fs.entNext_lt (s : Fs) (e : ℕ) : s.entNext e < 2 ^ 64 := Bytes.le_lt _ _ _

theorem Fs.entNext_store_next (ha : a < 2 ^ 64) :
    (s.store (.next e) a).entNext e = a := by
  simp only [entNext, store, update_self, Bytes.le_putLe]
  exact Nat.mod_eq_of_lt ha

theorem Fs.entNext_store (h : l ≠ .next e) :
    (s.store l a).entNext e = s.entNext e := by
  cases l with
  | head dir => rfl
  | next x =>
    have hne : e ≠ x := fun heq => h (heq ▸ rfl)
    simp only [entNext, store, update_of_ne hne]

/-- A store to a link keeps the first 72 bytes of every entry. -/
theorem Fs.ents_store (s : Fs) (l : Link) (a e : ℕ) {k : ℕ} (hk : k < 72) :
    (s.store l a).ents e k = s.ents e k := by
  cases l with
  | head dir => rfl
  | next x =>
    by_cases hx : e = x
    · subst hx
      simp only [store, update_self]
      exact Bytes.putLe_of_lt hk
    · simp only [store, update_of_ne hx]

/-- The vnode of an entry lies in bytes 64 to 71. -/
theorem entVnode_congr (h : ∀ k, 64 ≤ k → k < 72 → s'.ents e k = s.ents e k) :
    s'.entVnode e = s.entVnode e := Bytes.le_congr h

@[simp] theorem Fs.entVnode_store (s : Fs) (l : Link) (a e : ℕ) :
    (s.store l a).entVnode e = s.entVnode e :=
  entVnode_congr fun _ _ hk => s.ents_store l a e hk

/-- Redirecting the link to an entry takes the entry off the list. -/
theorem Fs.IsListAt.splice {a : List ℕ} (h : s.IsListAt l (a ++ e :: b))
    (hl : ∀ x ∈ a ++ e :: b, l ≠ .next x) :
    (s.store (l.after a) (s.entNext e)).IsListAt l (a ++ b) := by
  have hlt := s.entNext_lt e
  have hnodup := IsList.nodup h
  rcases List.eq_nil_or_concat a with rfl | ⟨a, q, rfl⟩
  · obtain ⟨-, -, hnext⟩ := h.tail
    have hkeep : ∀ x ∈ b, (s.store l (s.entNext e)).nextPtr x = s.nextPtr x := by
      intro x hx
      rw [Fs.nextPtr, Fs.entNext_store (hl x (by simp [hx])), ← Fs.nextPtr]
    have hload : (s.store l (s.entNext e)).load l = s.entNext e := by
      cases l with
      | head dir => exact update_self _ _ _
      | next x => exact Fs.entNext_store_next hlt
    rw [Link.after_nil, List.nil_append, Fs.IsListAt, hload]
    exact IsList.congr hnext hkeep
  · rw [List.concat_eq_append] at h hl hnodup ⊢
    rw [Link.after_concat]
    have hnext : (s.store (.next q) (s.entNext e)).nextPtr =
        update s.nextPtr q (s.nextPtr e) := by
      funext x
      by_cases hx : x = q
      · subst hx
        rw [update_self, Fs.nextPtr, Fs.entNext_store_next hlt, Fs.nextPtr]
      · rw [update_of_ne hx, Fs.nextPtr, Fs.entNext_store (by simpa using Ne.symm hx),
          ← Fs.nextPtr]
    have hload : (s.store (.next q) (s.entNext e)).load l = s.load l := by
      cases l with
      | head dir => rfl
      | next x =>
        refine Fs.entNext_store fun heq => hl q (by simp) ?_
        rw [heq]
    rw [Fs.IsListAt, hload, hnext]
    simp only [List.append_assoc, List.singleton_append] at h ⊢
    exact IsList.unlink h

/-! ## The lists of all directories -/

/-- `kids` are the entries of each vnode, in list order; the counts fit and no entry is in two
lists. -/
structure Listed (s : Fs) (nodes : ℕ → Prop) (kids : ℕ → List ℕ) : Prop where
  list : ∀ v, nodes v → s.IsListAt (.head v) (kids v)
  count : ∀ v, nodes v → s.vNchildren v = (kids v).length
  apart : ∀ v w e, nodes v → nodes w → e ∈ kids v → e ∈ kids w → v = w

variable {nodes nodes' : ℕ → Prop} {kids : ℕ → List ℕ}

section

variable (h : Listed s nodes kids)
include h

/-- The lists depend on the heads, the counts and the links of the entries. -/
theorem Listed.congr (hnodes : ∀ v, nodes' v → nodes v)
    (hhead : ∀ v, nodes' v → s'.vChildren v = s.vChildren v)
    (hcount : ∀ v, nodes' v → s'.vNchildren v = s.vNchildren v)
    (hnext : ∀ v, nodes' v → ∀ e ∈ kids v, s'.entNext e = s.entNext e) :
    Listed s' nodes' kids where
  list := fun v hv => by
    have hlist : IsList s.nextPtr (ptr (s.vChildren v)) (kids v) := h.list v (hnodes v hv)
    rw [← hhead v hv] at hlist
    refine hlist.congr fun e he => ?_
    rw [Fs.nextPtr, hnext v hv e he, ← Fs.nextPtr]
  count := fun v hv => (hcount v hv).trans (h.count v (hnodes v hv))
  apart := fun v w e hv hw => h.apart v w e (hnodes v hv) (hnodes w hw)

theorem Listed.nodup (hv : nodes v) : (kids v).Nodup :=
  IsList.nodup (h.list v hv)

/-- Taking an entry out of the list of a directory. -/
theorem Listed.splice (hd : nodes d) {a : List ℕ} (hkids : kids d = a ++ e :: b) :
    Listed (s.splice d ((Link.head d).after a) (s.entNext e)) nodes
      (update kids d (a ++ b)) := by
  have hsub : ∀ x ∈ a ++ b, x ∈ kids d := by
    intro x hx
    rw [hkids]
    simp only [List.mem_append, List.mem_cons] at hx ⊢
    tauto
  have hlist := h.list d hd
  rw [hkids] at hlist
  refine ⟨fun v hv => ?_, fun v hv => ?_, fun v w x hv hw hxv hxw => ?_⟩
  · by_cases hvd : v = d
    · subst hvd
      rw [update_self]
      exact hlist.splice (by simp)
    · rw [update_of_ne hvd]
      have hold := h.list v hv
      -- The link that changes is the head of `d` or in one of its entries.
      have hhead : ((s.splice d ((Link.head d).after a) (s.entNext e)).load (.head v)) =
          s.load (.head v) := by
        rcases List.eq_nil_or_concat a with rfl | ⟨a, q, rfl⟩
        · exact update_of_ne hvd _ _
        · rw [List.concat_eq_append, Link.after_concat]
          rfl
      rw [Fs.IsListAt, hhead]
      refine IsList.congr hold fun x hx => ?_
      have hxd : x ∉ kids d := fun hxd => hvd (h.apart v d x hv hd hx hxd)
      refine congrArg ptr (Fs.entNext_store fun heq => ?_)
      rcases List.eq_nil_or_concat a with rfl | ⟨a, q, rfl⟩
      · cases heq
      · rw [List.concat_eq_append, Link.after_concat] at heq
        cases heq
        exact hxd (hsub _ (by simp))
  · by_cases hvd : v = d
    · subst hvd
      have hcount := h.count v hv
      simp only [Fs.splice, update_self, Fs.store, hcount, hkids, List.length_append,
        List.length_cons, Nat.cast_add, Nat.cast_one]
      omega
    · simp only [Fs.splice, update_of_ne hvd]
      exact h.count v hv
  · have hed : e ∈ kids d := by simp [hkids]
    have honly : ∀ v, nodes v → e ∈ kids v → v = d := fun v hv he => h.apart v d e hv hd he hed
    have hnodup := h.nodup hd
    exact h.apart v w x hv hw ((mem_update_splice hkids hnodup (honly v hv)).mp hxv).1
      ((mem_update_splice hkids hnodup (honly w hw)).mp hxw).1

/-- Putting an entry that is in no list in front of the list of a directory. -/
theorem Listed.prepend (hd : nodes d) (he0 : e ≠ 0) (he : ∀ v, nodes v → e ∉ kids v)
    (haddr : ∀ x ∈ kids d, x < 2 ^ 64) :
    Listed (s.prepend d e) nodes (update kids d (e :: kids d)) := by
  have hlt : s.vChildren d < 2 ^ 64 := by
    have hhead : ptr (s.vChildren d) = (kids d).head? := IsList.head_eq (h.list d hd)
    cases hkids : kids d with
    | nil =>
      rw [hkids] at hhead
      rw [ptr_eq_none.mp hhead]
      decide
    | cons x L =>
      rw [hkids] at hhead
      rw [(ptr_eq_some.mp hhead).1]
      exact haddr x (by simp [hkids])
  have hself : (s.prepend d e).entNext e = s.vChildren d := by
    simp only [Fs.prepend, Fs.setEnt, Fs.entNext, update_self, Bytes.le_putLe]
    exact Nat.mod_eq_of_lt hlt
  have hother : ∀ x ≠ e, (s.prepend d e).entNext x = s.entNext x := by
    intro x hx
    simp only [Fs.prepend, Fs.setEnt, Fs.entNext, update_of_ne hx]
  have hold : ∀ v, nodes v → IsList (s.prepend d e).nextPtr (ptr (s.vChildren v)) (kids v) := by
    intro v hv
    refine IsList.congr (h.list v hv) fun x hx => congrArg ptr (hother x ?_)
    rintro rfl
    exact he v hv hx
  refine ⟨fun v hv => ?_, fun v hv => ?_, fun v w x hv hw hxv hxw => ?_⟩
  · by_cases hvd : v = d
    · subst hvd
      rw [update_self]
      refine ⟨ptr_eq_some.mpr ⟨update_self _ _ _, ?_⟩, ?_⟩
      · exact fun h0 => he0 ((update_self _ _ _).symm.trans h0)
      · rw [Fs.nextPtr, hself]
        exact hold v hv
    · rw [update_of_ne hvd]
      have hhead : (s.prepend d e).load (.head v) = s.vChildren v := update_of_ne hvd _ _
      rw [Fs.IsListAt, hhead]
      exact hold v hv
  · by_cases hvd : v = d
    · subst hvd
      have hcount := h.count v hv
      simp only [Fs.prepend, Fs.setEnt, update_self, hcount, List.length_cons,
        Nat.cast_add, Nat.cast_one]
    · simp only [Fs.prepend, Fs.setEnt, update_of_ne hvd]
      exact h.count v hv
  · rcases mem_update_cons.mp hxv with holdv | ⟨rfl, rfl⟩
    · rcases mem_update_cons.mp hxw with holdw | ⟨rfl, -⟩
      · exact h.apart v w x hv hw holdv holdw
      · exact absurd holdv (he v hv)
    · rcases mem_update_cons.mp hxw with holdw | ⟨-, rfl⟩
      · exact absurd holdw (he w hw)
      · rfl

end

end Tomahawk.Ramfs
