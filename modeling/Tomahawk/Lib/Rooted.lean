import Mathlib.Logic.Relation

/-!
# Reachability from a root

When one edge of a graph moves to another place, or a node without edges goes, the other
nodes are still reached from the root. With one parent a node, nothing reached is on a cycle.
-/

namespace Tomahawk.Lib

open Relation

variable {V : Type*} {edge edge' : V → V → Prop} {root t p v : V}

/-- A node without edges can go. -/
theorem reach_remove (hleaf : ∀ c, ¬ edge t c) (hkeep : ∀ d c, edge d c → c ≠ t → edge' d c)
    (hv : ReflTransGen edge root v) (hne : v ≠ t) : ReflTransGen edge' root v := by
  induction hv with
  | refl => exact .refl
  | @tail d c _ hedge ih =>
    have hd : d ≠ t := by
      rintro rfl
      exact hleaf c hedge
    exact (ih hd).tail (hkeep _ _ hedge hne)

/-- A node `t` can move to a new parent `p` that is not below it. -/
theorem reach_move (hkeep : ∀ d c, edge d c → c ≠ t → edge' d c) (hnew : edge' p t)
    (hp : ReflTransGen edge root p) (hnot : ¬ ReflTransGen edge t p)
    (hv : ReflTransGen edge root v) : ReflTransGen edge' root v := by
  -- What is not below `t` keeps its path.
  have hapart : ∀ v, ReflTransGen edge root v → ¬ ReflTransGen edge t v →
      ReflTransGen edge' root v := by
    intro v hv
    induction hv with
    | refl => exact fun _ => .refl
    | tail _ hedge ih =>
      intro hbelow
      refine (ih fun hd => hbelow (hd.tail hedge)).tail (hkeep _ _ hedge ?_)
      rintro rfl
      exact hbelow .refl
  have ht : ReflTransGen edge' root t := (hapart p hp hnot).tail hnew
  -- What is below `t` is reached through its new place.
  have hbelow : ∀ v, ReflTransGen edge t v → ReflTransGen edge' root v := by
    intro v hv
    induction hv with
    | refl => exact ht
    | @tail d c _ hedge ih =>
      by_cases hc : c = t
      · rw [hc]
        exact ht
      · exact ih.tail (hkeep _ _ hedge hc)
  by_cases hcase : ReflTransGen edge t v
  · exact hbelow v hcase
  · exact hapart v hv hcase

/-- Where every node has at most one parent and the root none, no node reached from the root is
on a cycle. -/
theorem acyclic_of_reach (hroot : ∀ d, ¬ edge d root)
    (hunique : ∀ d d' c, edge d c → edge d' c → d = d') (hv : ReflTransGen edge root v) :
    ¬ TransGen edge v v := by
  induction hv with
  | refl =>
    intro hcycle
    obtain ⟨d, -, hedge⟩ := TransGen.tail'_iff.mp hcycle
    exact hroot d hedge
  | @tail d c _ hedge ih =>
    intro hcycle
    obtain ⟨d', hpath, hedge'⟩ := TransGen.tail'_iff.mp hcycle
    obtain rfl := hunique d d' c hedge hedge'
    exact ih (TransGen.head' hedge hpath)

end Tomahawk.Lib
