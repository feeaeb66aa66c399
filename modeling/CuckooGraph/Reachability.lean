import Mathlib.Data.List.Basic
import Mathlib.Logic.Relation
import Mathlib.Tactic

/-! # Strongly connected components

A search which finds the components of a graph one after the other knows of a
component that its edges lead into it or into those found before, and that its
nodes are joined by paths to one of them, the root. That is enough.
-/

namespace Reachability

variable {V : Type} (r : V → V → Prop)

abbrev Reach : V → V → Prop := Relation.ReflTransGen r

/-- No edge leads out of the set. -/
def Closed (S : V → Prop) : Prop := ∀ a, S a → ∀ b, r a b → S b

/-- The list is a strongly connected component. -/
structure Component (C : List V) : Prop where
  nonempty : C ≠ []
  mutual_iff : ∀ a ∈ C, ∀ b, b ∈ C ↔ Reach r a b ∧ Reach r b a

/-- No node of a component reaches one of a later component. -/
def Ordered (comps : List (List V)) : Prop :=
  comps.Pairwise fun C D => ∀ a ∈ C, ∀ b ∈ D, ¬ Reach r a b

variable {r}

theorem Closed.reach {S : V → Prop} (closed : Closed r S) {a b : V} (ha : S a) (path : Reach r a b) : S b := by
  induction path with
  | refl => exact ha
  | tail _ edge ih => exact closed _ ih _ edge

/-- If from each node but the root one gets to a node of lower rank, one gets to the root. -/
theorem reach_root {C : List V} {root : V} {rank : V → Nat}
    (descend : ∀ a ∈ C, a ≠ root → ∃ b ∈ C, rank b < rank a ∧ Reach r a b) :
    ∀ a ∈ C, Reach r a root := by
  have below : ∀ k, ∀ a ∈ C, rank a ≤ k → Reach r a root := by
    intro k
    induction k with
    | zero =>
        intro a ha low
        by_cases top : a = root
        · rw [top]
        · obtain ⟨b, -, less, -⟩ := descend a ha top
          omega
    | succ k ih =>
        intro a ha low
        by_cases top : a = root
        · rw [top]
        · obtain ⟨b, hb, less, path⟩ := descend a ha top
          exact path.trans (ih b hb (by omega))
  exact fun a ha => below (rank a) a ha (le_refl _)

section Root

variable {C D : List V} {root : V} (inside : root ∈ C) (apart : ∀ a ∈ C, a ∉ D)
  (found : Closed r (· ∈ D)) (edges : ∀ a ∈ C, ∀ b, r a b → b ∈ C ∨ b ∈ D)

include found edges

theorem closed_append : Closed r (· ∈ D ++ C) := by
  intro a ha b edge
  rcases List.mem_append.mp ha with ha | ha
  · exact List.mem_append.mpr (.inl (found a ha b edge))
  · exact List.mem_append.mpr (edges a ha b edge).symm

include inside apart

/-- A set of nodes which is joined to its root both ways, and whose edges lead
    into it or into what was found before, is a component. -/
theorem component_of_root (down : ∀ a ∈ C, Reach r root a) (up : ∀ a ∈ C, Reach r a root) :
    Component r C where
  nonempty := List.ne_nil_of_mem inside
  mutual_iff := by
    intro a ha b
    constructor
    · intro hb
      exact ⟨(up a ha).trans (down b hb), (up b hb).trans (down a ha)⟩
    · rintro ⟨there, back⟩
      have known := (closed_append found edges).reach (List.mem_append.mpr (.inr ha)) there
      rcases List.mem_append.mp known with hb | hb
      · exact absurd (found.reach hb back) (apart a ha)
      · exact hb

end Root

/-- A component found last is reached from none of those before. -/
theorem ordered_append {comps : List (List V)} {C : List V} (ordered : Ordered r comps)
    (found : Closed r (· ∈ comps.flatten)) (apart : ∀ a ∈ C, a ∉ comps.flatten) :
    Ordered r (comps ++ [C]) := by
  refine List.pairwise_append.mpr ⟨ordered, List.pairwise_singleton _ _, ?_⟩
  intro D hD E hE a ha b hb path
  rw [List.mem_singleton.mp hE] at hb
  exact apart b hb (found.reach (List.mem_flatten.mpr ⟨D, hD, ha⟩) path)

end Reachability
