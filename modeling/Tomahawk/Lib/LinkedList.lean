import Mathlib.Data.List.Nodup

/-!
# Pointer-linked lists

A list of nodes linked by a field `next : P → Option P`, where `none` is the null
pointer. `IsSeg next h l t` says that following the links from `h` meets the nodes
of `l` in order and then stands at `t`. A whole list is a segment that ends at
null, and a doubly linked list is one list by its `next` field and the reversed
list by its `prev` field.
-/

namespace Tomahawk.Lib

open Function

variable {P : Type*} {next next' : P → Option P} {h t : Option P} {p q : P} {l a b : List P}
  {test : P → Bool} {fuel : ℕ}

/-- The links from `h` run through `l` and arrive at `t`. -/
def IsSeg (next : P → Option P) : Option P → List P → Option P → Prop
  | h, [], t => h = t
  | h, p :: l, t => h = some p ∧ IsSeg next (next p) l t

/-- The links from `h` run through `l` and end at null. -/
def IsList (next : P → Option P) (h : Option P) (l : List P) : Prop := IsSeg next h l none

@[simp] theorem isSeg_nil : IsSeg next h [] t ↔ h = t := Iff.rfl

@[simp] theorem isSeg_cons :
    IsSeg next h (p :: l) t ↔ h = some p ∧ IsSeg next (next p) l t := Iff.rfl

@[simp] theorem isList_nil : IsList next h [] ↔ h = none := Iff.rfl

@[simp] theorem isList_cons :
    IsList next h (p :: l) ↔ h = some p ∧ IsList next (next p) l := Iff.rfl

instance decidableIsSeg [DecidableEq P] (next : P → Option P) :
    (h : Option P) → (l : List P) → (t : Option P) → Decidable (IsSeg next h l t)
  | h, [], t => inferInstanceAs (Decidable (h = t))
  | h, p :: l, t =>
    have := decidableIsSeg next (next p) l t
    inferInstanceAs (Decidable (h = some p ∧ IsSeg next (next p) l t))

instance [DecidableEq P] (next : P → Option P) (h : Option P) (l : List P) :
    Decidable (IsList next h l) :=
  decidableIsSeg next h l none

/-- A segment splits at any point. -/
theorem isSeg_append :
    IsSeg next h (a ++ b) t ↔ ∃ m, IsSeg next h a m ∧ IsSeg next m b t := by
  induction a generalizing h with
  | nil => simp
  | cons p a ih => simp [ih, and_assoc]

/-- Only the links of the nodes on a segment matter. -/
theorem IsSeg.congr (hl : IsSeg next h l t) (heq : ∀ p ∈ l, next' p = next p) :
    IsSeg next' h l t := by
  induction l generalizing h with
  | nil => exact hl
  | cons p l ih =>
    refine ⟨hl.1, ?_⟩
    rw [heq p (by simp)]
    exact ih hl.2 fun q hq => heq q (by simp [hq])

theorem IsList.congr (hl : IsList next h l) (heq : ∀ p ∈ l, next' p = next p) :
    IsList next' h l := IsSeg.congr hl heq

/-- The head pointer is the first node. -/
theorem IsList.head_eq (hl : IsList next h l) : h = l.head? := by
  cases l with
  | nil => exact hl
  | cons p l => exact hl.1

/-- The nodes that the links meet are determined by the head pointer. -/
theorem IsList.unique {l' : List P} (hl : IsList next h l) (hl' : IsList next h l') : l = l' := by
  induction l generalizing h l' with
  | nil =>
    cases l' with
    | nil => rfl
    | cons p l' => simp [isList_nil.mp hl] at hl'
  | cons p l ih =>
    obtain ⟨rfl, hl⟩ := hl
    cases l' with
    | nil => simp at hl'
    | cons q l' =>
      obtain ⟨hq, hl'⟩ := hl'
      cases hq
      rw [ih hl hl']

/-- The link of a node on a list is the node after it. -/
theorem IsList.next_eq (hl : IsList next h (a ++ p :: b)) :
    next p = b.head? := by
  obtain ⟨_, _, _, hb⟩ := isSeg_append.mp hl
  exact head_eq hb

/-- A list that ends at null meets no node twice. -/
theorem IsList.nodup (hl : IsList next h l) : l.Nodup := by
  induction l generalizing h with
  | nil => exact List.nodup_nil
  | cons p l ih =>
    refine List.nodup_cons.mpr ⟨fun hp => ?_, ih hl.2⟩
    -- A second meeting with `p` would give two lists of different length from its link.
    obtain ⟨a, b, rfl⟩ := List.append_of_mem hp
    obtain ⟨_, _, _, hb⟩ := isSeg_append.mp hl.2
    have hlen := congrArg List.length (unique hl.2 hb)
    simp only [List.length_append, List.length_cons] at hlen
    omega

/-- Pushing a new node in front. -/
theorem IsList.push [DecidableEq P] (hl : IsList next h l) (hp : p ∉ l) :
    IsList (update next p h) (some p) (p :: l) := by
  refine ⟨rfl, ?_⟩
  rw [update_self]
  refine hl.congr fun q hq => update_of_ne ?_ _ _
  rintro rfl
  exact hp hq

/-- Unlinking the first node moves the head pointer to its link. -/
theorem IsList.tail (hl : IsList next h (p :: l)) :
    IsList next (next p) l := hl.2

/-- Unlinking a node with a predecessor redirects the link of the predecessor. -/
theorem IsList.unlink [DecidableEq P] (hl : IsList next h (a ++ q :: p :: b)) :
    IsList (update next q (next p)) h (a ++ q :: b) := by
  have hnodup := hl.nodup
  obtain ⟨m, ha, hq, hp, hb⟩ := isSeg_append.mp hl
  obtain ⟨_, hrest, hdisj⟩ := List.nodup_append.mp hnodup
  refine isSeg_append.mpr ⟨m, ha.congr fun x hx => ?_, hq, ?_⟩
  · exact update_of_ne (hdisj x hx q (by simp)) _ _
  · rw [update_self]
    refine hb.congr fun x hx => update_of_ne ?_ _ _
    rintro rfl
    simp [hx] at hrest

/-- Redirecting the pointer to a node takes the node off the list. -/
theorem IsList.unlinkAt [DecidableEq P] (hl : IsList next h (a ++ p :: b)) :
    IsList
      (match a.getLast? with
        | some q => update next q (next p)
        | none => next)
      (match a.getLast? with
        | some _ => h
        | none => next p) (a ++ b) := by
  rcases List.eq_nil_or_concat a with rfl | ⟨a, q, rfl⟩
  · exact hl.tail
  · simp only [List.concat_eq_append, List.append_assoc, List.singleton_append,
      List.getLast?_append, List.getLast?_singleton, Option.some_or] at hl ⊢
    exact hl.unlink

/-- Redirecting the pointer to a node, which is the link of its predecessor or the
head pointer, and clearing its own link takes the node off the list. -/
theorem IsList.removeAt [DecidableEq P] (hl : IsList next h (a ++ p :: b)) :
    IsList
      (update
        (match a.getLast? with
          | some q => update next q (next p)
          | none => next) p none)
      (match a.getLast? with
        | some _ => h
        | none => next p) (a ++ b) := by
  have hp : p ∉ a ++ b := by
    have hnodup := hl.nodup
    rw [List.nodup_middle, List.nodup_cons] at hnodup
    exact hnodup.1
  refine hl.unlinkAt.congr fun x hx => update_of_ne ?_ _ _
  rintro rfl
  exact hp hx

/-- Hanging a new node behind the last one. -/
theorem IsList.snoc [DecidableEq P] (hl : IsList next h (a ++ [q])) (hp : p ∉ a ++ [q]) :
    IsList (update (update next p none) q (some p)) h (a ++ [q] ++ [p]) := by
  have hnodup := hl.nodup
  obtain ⟨m, ha, hq, _⟩ := isSeg_append.mp hl
  obtain ⟨_, _, hdisj⟩ := List.nodup_append.mp hnodup
  simp only [List.mem_append, List.mem_singleton, not_or] at hp
  refine isSeg_append.mpr ⟨some p, isSeg_append.mpr ⟨m, ha.congr fun x hx => ?_, hq, ?_⟩, rfl, ?_⟩
  · have hxq : x ≠ q := hdisj x hx q (by simp)
    have hxp : x ≠ p := fun heq => hp.1 (heq ▸ hx)
    simp [update_of_ne hxq, update_of_ne hxp]
  · simp
  · simp [update_of_ne hp.2]

section Walk

/-- Follow the links from a pointer to the first node that passes a test, for at
most `fuel` nodes. -/
def walkFind (next : P → Option P) (test : P → Bool) : ℕ → Option P → Option P
  | 0, _ => none
  | _ + 1, none => none
  | fuel + 1, some p => if test p then some p else walkFind next test fuel (next p)

/-- With fuel for every node, the walk is a search of the list. -/
theorem walkFind_eq (hl : IsList next h l) (hfuel : l.length ≤ fuel) :
    walkFind next test fuel h = l.find? test := by
  induction l generalizing fuel h with
  | nil =>
    obtain rfl := isList_nil.mp hl
    cases fuel <;> rfl
  | cons p l ih =>
    obtain ⟨rfl, hl⟩ := hl
    cases fuel with
    | zero => simp at hfuel
    | succ fuel =>
      simp only [List.length_cons, Nat.add_le_add_iff_right] at hfuel
      by_cases hp : test p = true
      · simp [walkFind, hp]
      · simp [walkFind, hp, ih hl hfuel]

/-- Follow the links from a pointer to the first node that passes a test, and remember the node
before it. -/
def walkFindPrev (next : P → Option P) (test : P → Bool) :
    ℕ → Option P → Option P → Option (Option P × P)
  | 0, _, _ => none
  | _ + 1, _, none => none
  | fuel + 1, prev, some p =>
    if test p then some (prev, p) else walkFindPrev next test fuel (some p) (next p)

theorem walkFindPrev_head {next : P → Option P} {prev : Option P} (hfuel : 0 < fuel)
    (hp : test p = true) :
    walkFindPrev next test fuel prev (some p) = some (prev, p) := by
  cases fuel with
  | zero => exact absurd hfuel (Nat.lt_irrefl 0)
  | succ fuel => rw [walkFindPrev, if_pos hp]

/-- With fuel for every node, the walk finds the first node that passes the test and the one
before it, if there is such a node. -/
theorem walkFindPrev_spec (test : P → Bool) (prev : Option P) (hl : IsList next h l)
    (hfuel : l.length ≤ fuel) :
    (walkFindPrev next test fuel prev h = none ∧ ∀ x ∈ l, test x = false) ∨
      ∃ a c b, l = a ++ c :: b ∧ test c = true ∧
        walkFindPrev next test fuel prev h = some (a.getLast?.or prev, c) := by
  induction l generalizing fuel h prev with
  | nil =>
    obtain rfl := isList_nil.mp hl
    left
    cases fuel <;> simp [walkFindPrev]
  | cons p l ih =>
    obtain ⟨rfl, hl⟩ := hl
    cases fuel with
    | zero => simp at hfuel
    | succ fuel =>
      simp only [List.length_cons, Nat.add_le_add_iff_right] at hfuel
      by_cases hp : test p = true
      · exact .inr ⟨[], p, l, rfl, hp, by simp [walkFindPrev, hp]⟩
      · have hwalk : walkFindPrev next test (fuel + 1) prev (some p) =
            walkFindPrev next test fuel (some p) (next p) := by
          simp [walkFindPrev, hp]
        rw [hwalk]
        rcases ih (some p) hl hfuel with ⟨hnone, hall⟩ | ⟨a, c, b, rfl, hc, hsome⟩
        · exact .inl ⟨hnone, by simpa [hp] using hall⟩
        · refine .inr ⟨p :: a, c, b, rfl, hc, ?_⟩
          rw [hsome, List.getLast?_cons]
          cases a.getLast? <;> simp

/-- Take a node off a list that only has forward links: redirect the pointer that leads
to it, which is the head pointer or the link of its predecessor. The result is the new
links and head, or `none` when the walk does not meet the node. -/
def removeLink [DecidableEq P] (next : P → Option P) (fuel : ℕ) (h : Option P) (p : P) :
    Option ((P → Option P) × Option P) :=
  if h = some p then some (next, next p)
  else
    match walkFind next (fun q => next q == some p) fuel h with
    | some q => some (update next q (next p), h)
    | none => none

/-- On a list, a node has one predecessor. -/
theorem IsList.pred_unique {x : P} (hl : IsList next h (a ++ q :: p :: b))
    (hx : x ∈ a ++ q :: p :: b) (hnext : next x = some p) :
    x = q := by
  obtain ⟨c, d, hsplit⟩ := List.append_of_mem hx
  obtain ⟨-, -, -, -, hb⟩ := isSeg_append.mp hl
  obtain ⟨-, -, -, hd⟩ := isSeg_append.mp (hsplit ▸ hl)
  -- From `p` on there is only one list, behind both nodes.
  rw [hnext] at hd
  obtain rfl : d = p :: b := unique hd ⟨rfl, hb⟩
  have hcut : (c ++ [x]) ++ p :: b = (a ++ [q]) ++ p :: b := by simpa using hsplit.symm
  simpa using congrArg List.getLast? (List.append_cancel_right hcut)

/-- Removal by walking, for a node that is on the list. -/
theorem IsList.removeLink_eq [DecidableEq P] (hl : IsList next h (a ++ p :: b))
    (hfuel : (a ++ p :: b).length ≤ fuel) :
    removeLink next fuel h p =
      some (match a.getLast? with
          | some q => update next q (next p)
          | none => next,
        match a.getLast? with
          | some _ => h
          | none => next p) := by
  rcases List.eq_nil_or_concat a with rfl | ⟨a, q, rfl⟩
  · have hhead : h = some p := hl.1
    simp [removeLink, hhead]
  · simp only [List.concat_eq_append, List.append_assoc, List.singleton_append] at hl hfuel ⊢
    have hne : h ≠ some p := by
      rintro rfl
      obtain ⟨-, -, -, -, hb⟩ := isSeg_append.mp hl
      have hrest : IsList next (some p) (p :: b) := ⟨rfl, hb⟩
      have hlen := congrArg List.length (unique hl hrest)
      simp only [List.length_append, List.length_cons] at hlen
      omega
    have hwalk : walkFind next (fun x => next x == some p) fuel h = some q := by
      rw [walkFind_eq hl hfuel]
      cases hfind : (a ++ q :: p :: b).find? fun x => next x == some p with
      | none =>
        have := List.find?_eq_none.mp hfind q (by simp)
        simp [hl.next_eq] at this
      | some x =>
        have hx := List.find?_some hfind
        rw [hl.pred_unique (List.mem_of_find?_eq_some hfind) (by simpa using hx)]
    simp [removeLink, hne, hwalk]

theorem erase_middle [DecidableEq P] (h : (a ++ p :: b).Nodup) :
    (a ++ p :: b).erase p = a ++ b := by
  rw [List.nodup_middle, List.nodup_cons, List.mem_append, not_or] at h
  rw [List.erase_append_right _ h.1.1, List.erase_cons_head]

/-- Removal by walking takes the node off the list and leaves the links of nodes that
are not on the list alone. -/
theorem IsList.exists_removeLink [DecidableEq P] (hl : IsList next h l) (hp : p ∈ l)
    (hfuel : l.length ≤ fuel) :
    ∃ next' h', removeLink next fuel h p = some (next', h') ∧
      IsList (update next' p none) h' (l.erase p) ∧ ∀ x ∉ l, next' x = next x := by
  obtain ⟨a, b, rfl⟩ := List.append_of_mem hp
  refine ⟨_, _, hl.removeLink_eq hfuel, ?_, fun x hx => ?_⟩
  · rw [erase_middle hl.nodup]
    exact hl.removeAt
  · cases hlast : a.getLast? with
    | none => rfl
    | some q =>
      refine update_of_ne ?_ _ _
      rintro rfl
      simp [List.mem_of_getLast? hlast] at hx

end Walk

/-! ## Doubly linked lists -/

/-- The head and tail pointers and the two link fields of a doubly linked list. -/
structure DList (P : Type*) where
  head : Option P
  tail : Option P
  next : P → Option P
  prev : P → Option P

namespace DList

variable [DecidableEq P] {d : DList P}

/-- Unlink a node from its neighbours and clear its links. -/
def remove (d : DList P) (p : P) : DList P :=
  let d := match d.prev p with
    | some q => { d with next := update d.next q (d.next p) }
    | none => { d with head := d.next p }
  let d := match d.next p with
    | some q => { d with prev := update d.prev q (d.prev p) }
    | none => { d with tail := d.prev p }
  { d with
    prev := update d.prev p none
    next := update d.next p none }

/-- Link a node in front of the first one. -/
def addFront (d : DList P) (p : P) : DList P :=
  let d' := { d with
    prev := update d.prev p none
    next := update d.next p d.head }
  match d.head with
  | some q => { d' with prev := update d'.prev q (some p), head := some p }
  | none => { d' with tail := some p, head := some p }

/-- The nodes of the list in order, read forwards and backwards. -/
structure Is (d : DList P) (l : List P) : Prop where
  next : IsList d.next d.head l
  prev : IsList d.prev d.tail l.reverse

omit [DecidableEq P] in
theorem Is.nodup (h : d.Is l) : l.Nodup := h.next.nodup

omit [DecidableEq P] in
/-- The links of a node are its neighbours. -/
theorem Is.links (h : d.Is (a ++ p :: b)) :
    d.next p = b.head? ∧ d.prev p = a.getLast? := by
  refine ⟨h.next.next_eq, ?_⟩
  have hprev := h.prev
  simp only [List.reverse_append, List.reverse_cons, List.append_assoc, List.singleton_append]
    at hprev
  rw [hprev.next_eq, List.head?_reverse]

omit [DecidableEq P] in
/-- A node of a list has a neighbour or is the only node. -/
theorem Is.linked (h : d.Is l) (hp : p ∈ l) :
    d.prev p ≠ none ∨ d.next p ≠ none ∨ d.head = some p := by
  obtain ⟨a, b, rfl⟩ := List.append_of_mem hp
  rcases List.eq_nil_or_concat a with rfl | ⟨a, q, rfl⟩
  · exact .inr (.inr h.next.1)
  · left
    rw [h.links.2]
    simp

/-- Adding in front of a list. -/
theorem Is.addFront (h : d.Is l) (hp : p ∉ l) : (d.addFront p).Is (p :: l) := by
  have hhead := h.next.head_eq
  cases l with
  | nil =>
    constructor
    · simp [DList.addFront, hhead]
    · simp [DList.addFront, hhead]
  | cons q l =>
    constructor
    · simpa [DList.addFront, hhead] using h.next.push hp
    · have hprev := h.prev
      rw [List.reverse_cons] at hprev
      have hp' : p ∉ l.reverse ++ [q] := by simpa [or_comm] using hp
      simpa [DList.addFront, hhead] using hprev.snoc hp'

/-- Removing a node between two parts of a list. -/
theorem Is.remove_append (h : d.Is (a ++ p :: b)) :
    (d.remove p).Is (a ++ b) := by
  obtain ⟨hnext, hprev⟩ := h.links
  have hforward := h.next.removeAt
  have hback : IsList d.prev d.tail (b.reverse ++ p :: a.reverse) := by
    simpa using h.prev
  have hbackward := hback.removeAt
  rw [List.getLast?_reverse, ← hnext] at hbackward
  rw [← hprev] at hforward
  -- The first step of the removal does not touch the forward link of `p` itself.
  have hlink : ∀ q, d.prev p = some q → update d.next q (d.next p) p = d.next p := by
    intro q hq
    by_cases hqp : p = q
    · rw [← hqp, update_self]
    · exact update_of_ne hqp _ _
  cases hcase : d.prev p with
  | none =>
    cases hcase' : d.next p <;> simp only [hcase, hcase'] at hforward hbackward <;>
      constructor <;> simpa [DList.remove, hcase, hcase']
  | some r =>
    have hr := hlink r hcase
    cases hcase' : d.next p <;> simp only [hcase, hcase'] at hforward hbackward hr <;>
      constructor <;> simpa [DList.remove, hcase, hcase', hr]

/-- Removing a node of a list, by its name. -/
theorem Is.remove (h : d.Is l) (hp : p ∈ l) : (d.remove p).Is (l.erase p) := by
  obtain ⟨a, b, rfl⟩ := List.append_of_mem hp
  rw [erase_middle h.nodup]
  exact h.remove_append

end DList

/-! ## Several lists -/

section Several

variable {ι : Type*} [DecidableEq ι] {lists : ι → List P} {i j : ι} {p q : P}

/-- A node is put in front of one of the lists. -/
theorem mem_update_cons :
    q ∈ update lists i (p :: lists i) j ↔ q ∈ lists j ∨ q = p ∧ i = j := by
  by_cases hj : j = i
  · subst hj
    simp [or_comm]
  · simp [update_of_ne hj, Ne.symm hj]

/-- A node is taken out of the only list that it is in. -/
theorem mem_update_splice (hi : lists i = a ++ p :: b) (hnodup : (lists i).Nodup)
    (honly : p ∈ lists j → j = i) :
    q ∈ update lists i (a ++ b) j ↔ q ∈ lists j ∧ q ≠ p := by
  by_cases hj : j = i
  · subst hj
    rw [hi, List.nodup_middle, List.nodup_cons] at hnodup
    rw [update_self, hi, List.mem_append, List.mem_append, List.mem_cons]
    constructor
    · intro hq
      refine ⟨hq.imp_right .inr, ?_⟩
      rintro rfl
      exact hnodup.1 (List.mem_append.mpr hq)
    · rintro ⟨hq, hne⟩
      exact hq.imp_right fun hq => hq.resolve_left hne
  · rw [update_of_ne hj]
    refine ⟨fun hq => ⟨hq, ?_⟩, And.left⟩
    rintro rfl
    exact hj (honly hq)

end Several

end Tomahawk.Lib
