import Mathlib.Algebra.BigOperators.Group.Finset.Basic
import Mathlib.Algebra.BigOperators.Ring.Finset
import Mathlib.Data.Finset.Powerset
import Mathlib.Order.CompletePartialOrder
import Mathlib.Tactic

/-! # Triangles counted along an order

If all nodes have different ranks, the edges can be directed towards the higher
rank, and each triangle has one node from which two edges lead to the others. So
the directed triples sum up the triangles, each once, whatever the ranks are.
-/

namespace Cliques

variable {V : Type} [DecidableEq V] (S : Finset V) (adj : V → V → Prop) [DecidableRel adj] (rank : V → Nat)

/-- The sets of three nodes which are joined to each other. -/
def triangles : Finset (Finset V) := (S.powersetCard 3).filter fun t => ∀ x ∈ t, ∀ y ∈ t, x ≠ y → adj x y

/-- An edge towards the higher rank. -/
def Up (x y : V) : Prop := adj x y ∧ rank x < rank y

instance (x y : V) : Decidable (Up adj rank x y) := inferInstanceAs (Decidable (_ ∧ _))

/-- The directed triples. -/
def triples : Finset (V × V × V) :=
  (S ×ˢ S ×ˢ S).filter fun p => Up adj rank p.1 p.2.1 ∧ Up adj rank p.1 p.2.2 ∧ Up adj rank p.2.1 p.2.2

variable {S adj rank}

omit [DecidableEq V] in
/-- Three nodes in the order of their ranks are in one order only. -/
theorem order_unique {a b c x y z : V} (ab : rank a < rank b) (bc : rank b < rank c) (xy : rank x < rank y)
    (yz : rank y < rank z) (ha : a = x ∨ a = y ∨ a = z) (hb : b = x ∨ b = y ∨ b = z) (hc : c = x ∨ c = y ∨ c = z) :
    a = x ∧ b = y ∧ c = z := by
  have rank_eq : ∀ {u v : V}, u = v → rank u = rank v := fun same => congrArg rank same
  rcases ha with ha | ha | ha <;> rcases hb with hb | hb | hb <;> rcases hc with hc | hc | hc <;>
    first
      | exact ⟨ha, hb, hc⟩
      | (have first := rank_eq ha; have second := rank_eq hb; have third := rank_eq hc; omega)

/-- Three nodes can be put in the order of their ranks. -/
theorem order_exists {a b c : V} (ab : rank a ≠ rank b) (ac : rank a ≠ rank c) (bc : rank b ≠ rank c) :
    ∃ x y z, ({x, y, z} : Finset V) = {a, b, c} ∧ rank x < rank y ∧ rank y < rank z := by
  have swap : ∀ u v w : V, ({u, v, w} : Finset V) = {v, u, w} := fun u v w => Finset.insert_comm u v {w}
  have turn : ∀ u v w : V, ({u, v, w} : Finset V) = {u, w, v} := fun u v w => by rw [Finset.pair_comm v w]
  rcases Nat.lt_or_gt_of_ne ab with ab | ab <;> rcases Nat.lt_or_gt_of_ne ac with ac | ac <;>
    rcases Nat.lt_or_gt_of_ne bc with bc | bc
  · exact ⟨a, b, c, rfl, ab, bc⟩
  · exact ⟨a, c, b, turn a c b, ac, bc⟩
  · omega
  · exact ⟨c, a, b, (swap c a b).trans (turn a c b), ac, ab⟩
  · exact ⟨b, a, c, swap b a c, ab, ac⟩
  · omega
  · exact ⟨b, c, a, (turn b c a).trans (swap b a c), bc, ac⟩
  · exact ⟨c, b, a, ((turn c b a).trans (swap c a b)).trans (turn a c b), bc, ab⟩

theorem mem_triangles {t : Finset V} :
    t ∈ triangles S adj ↔ t ⊆ S ∧ t.card = 3 ∧ ∀ x ∈ t, ∀ y ∈ t, x ≠ y → adj x y := by
  rw [triangles, Finset.mem_filter, Finset.mem_powersetCard, and_assoc]

omit [DecidableEq V] in
theorem mem_triples {x y z : V} : (x, y, z) ∈ triples S adj rank ↔
    (x ∈ S ∧ y ∈ S ∧ z ∈ S) ∧ Up adj rank x y ∧ Up adj rank x z ∧ Up adj rank y z := by
  rw [triples, Finset.mem_filter, Finset.mem_product, Finset.mem_product]

/-- The directed triples are the triangles. -/
theorem sum_triples {M : Type} [AddCommMonoid M] (inj : Set.InjOn rank S) (symm : ∀ x y, adj x y → adj y x)
    (F : Finset V → M) : ∑ p ∈ triples S adj rank, F {p.1, p.2.1, p.2.2} = ∑ t ∈ triangles S adj, F t := by
  refine Finset.sum_bij (fun p _ => {p.1, p.2.1, p.2.2}) ?_ ?_ ?_ fun _ _ => rfl
  · rintro ⟨x, y, z⟩ hp
    obtain ⟨⟨hx, hy, hz⟩, ⟨xy, rxy⟩, ⟨xz, rxz⟩, yz, ryz⟩ := mem_triples.mp hp
    refine mem_triangles.mpr ⟨?_, ?_, ?_⟩
    · simp [Finset.insert_subset_iff, hx, hy, hz]
    · refine Finset.card_eq_three.mpr ⟨x, y, z, ?_, ?_, ?_, rfl⟩ <;> rintro rfl <;> omega
    · intro u hu v hv other
      simp only [Finset.mem_insert, Finset.mem_singleton] at hu hv
      rcases hu with rfl | rfl | rfl <;> rcases hv with rfl | rfl | rfl <;>
        first
          | exact absurd rfl other
          | assumption
          | exact symm _ _ ‹_›
  · rintro ⟨x, y, z⟩ hp ⟨x', y', z'⟩ hp' same
    obtain ⟨-, xy, -, yz⟩ := mem_triples.mp hp
    obtain ⟨-, xy', -, yz'⟩ := mem_triples.mp hp'
    have member : ∀ u, u = x ∨ u = y ∨ u = z → u = x' ∨ u = y' ∨ u = z' := by
      intro u hu
      have this : u ∈ ({x, y, z} : Finset V) := by simpa using hu
      rw [show ({x, y, z} : Finset V) = {x', y', z'} from same] at this
      simpa using this
    obtain ⟨rfl, rfl, rfl⟩ := order_unique xy.2 yz.2 xy'.2 yz'.2 (member x (.inl rfl)) (member y (.inr (.inl rfl)))
      (member z (.inr (.inr rfl)))
    rfl
  · intro t ht
    obtain ⟨inside, three, joined⟩ := mem_triangles.mp ht
    obtain ⟨a, b, c, ab, ac, bc, rfl⟩ := Finset.card_eq_three.mp three
    have ha : a ∈ S := inside (by simp)
    have hb : b ∈ S := inside (by simp)
    have hc : c ∈ S := inside (by simp)
    obtain ⟨x, y, z, same, xy, yz⟩ := order_exists (fun r => ab (inj ha hb r)) (fun r => ac (inj ha hc r))
      (fun r => bc (inj hb hc r))
    rw [← same] at inside joined
    have edge : ∀ u v, u ∈ ({x, y, z} : Finset V) → v ∈ ({x, y, z} : Finset V) → rank u < rank v → Up adj rank u v := by
      intro u v hu hv less
      exact ⟨joined u hu v hv fun same => absurd (congrArg rank same) less.ne, less⟩
    refine ⟨(x, y, z), mem_triples.mpr ?_, same⟩
    exact ⟨⟨inside (by simp), inside (by simp), inside (by simp)⟩, edge x y (by simp) (by simp) xy,
      edge x z (by simp) (by simp) (xy.trans yz), edge y z (by simp) (by simp) yz⟩

/-- Nested sums over the neighbours of higher rank. -/
theorem sum_nested (inj : Set.InjOn rank S) (symm : ∀ x y, adj x y → adj y x) (f : V → Nat) :
    ∑ x ∈ S, ∑ y ∈ S.filter (Up adj rank x), f x * f y * ∑ z ∈ S.filter fun z => Up adj rank x z ∧ Up adj rank y z, f z =
      ∑ t ∈ triangles S adj, ∏ x ∈ t, f x := by
  rw [← sum_triples inj symm, triples, Finset.sum_filter, Finset.sum_product]
  refine Finset.sum_congr rfl fun x _ => ?_
  rw [Finset.sum_filter, Finset.sum_product]
  refine Finset.sum_congr rfl fun y _ => ?_
  by_cases xy : Up adj rank x y
  · rw [if_pos xy, Finset.mul_sum, Finset.sum_filter]
    refine Finset.sum_congr rfl fun z _ => ?_
    by_cases both : Up adj rank x z ∧ Up adj rank y z
    · have distinct : x ≠ y ∧ x ≠ z ∧ y ≠ z := by
        refine ⟨?_, ?_, ?_⟩ <;> rintro rfl
        · exact absurd xy.2 (lt_irrefl _)
        · exact absurd both.1.2 (lt_irrefl _)
        · exact absurd both.2.2 (lt_irrefl _)
      have notin : x ∉ ({y, z} : Finset V) := by simp [distinct]
      simp only [xy, both, and_self, if_true]
      rw [Finset.prod_insert notin, Finset.prod_pair distinct.2.2, Nat.mul_assoc]
    · rw [if_neg both, if_neg fun all => both all.2]
  · simp [xy]

end Cliques
