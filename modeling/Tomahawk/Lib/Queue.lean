import Tomahawk.Lib.LinkedList

/-!
# Queues by head and tail pointers

A singly linked list with a pointer to its last node: nodes are hung behind the tail and
taken from the head.
-/

namespace Tomahawk.Lib

open Function

/-- The links of the nodes with the pointers to the first and the last one. -/
structure Queue (P : Type*) where
  next : P → Option P
  head : Option P
  tail : Option P

namespace Queue

variable {P : Type*} [DecidableEq P]

/-- Hang a node behind the last one. -/
def push (q : Queue P) (p : P) : Queue P :=
  let next := update q.next p none
  match q.head, q.tail with
  | some h, some t => ⟨update next t (some p), some h, some p⟩
  | _, _ => ⟨next, some p, some p⟩

/-- Take the first node, if there is one. -/
def pop (q : Queue P) : Queue P × Option P :=
  match q.head with
  | none => (q, none)
  | some p =>
    (⟨update q.next p none, q.next p, if q.next p = none then none else q.tail⟩, some p)

/-- The pointers spell the list `l`. -/
structure Is (q : Queue P) (l : List P) : Prop where
  links : IsList q.next q.head l
  tail : q.tail = l.getLast?

variable {q : Queue P} {l : List P} {p : P}

omit [DecidableEq P] in
theorem Is.nodup (h : q.Is l) : l.Nodup := h.links.nodup

/-- A new node is the last one. -/
theorem Is.push (h : q.Is l) (hp : p ∉ l) : (q.push p).Is (l ++ [p]) := by
  have htail := h.tail
  have hlinks := h.links
  rcases List.eq_nil_or_concat l with rfl | ⟨a, t, rfl⟩
  · have hhead : q.head = none := hlinks
    simp only [Queue.push, hhead]
    exact ⟨by simp, rfl⟩
  · rw [List.concat_eq_append] at hlinks hp htail ⊢
    rw [List.getLast?_concat] at htail
    obtain ⟨x, hx⟩ : ∃ x, q.head = some x := by
      rw [hlinks.head_eq]
      cases a <;> simp
    simp only [Queue.push, hx, htail]
    refine ⟨?_, by simp⟩
    rw [hx] at hlinks
    exact hlinks.snoc hp

/-- The first node is taken, and the rest stays. -/
theorem Is.pop (h : q.Is l) : q.pop.2 = l.head? ∧ q.pop.1.Is l.tail := by
  cases l with
  | nil =>
    have hhead : q.head = none := h.links
    simp only [Queue.pop, hhead]
    exact ⟨rfl, h⟩
  | cons p l =>
    obtain ⟨hhead, hrest⟩ := isList_cons.mp h.links
    have hp : p ∉ l := (List.nodup_cons.mp h.nodup).1
    simp only [Queue.pop, hhead]
    refine ⟨rfl, hrest.congr fun x hx => update_of_ne ?_ _ _, ?_⟩
    · rintro rfl
      exact hp hx
    · rw [hrest.head_eq, h.tail]
      cases l <;> simp

end Queue

end Tomahawk.Lib
