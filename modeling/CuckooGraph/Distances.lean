import Mathlib.Order.Bounds.Basic
import Mathlib.Tactic

/-! # Distances

The distance of a node is the least length of a walk to it. A walk out of a set
of nodes crosses an edge out of the set, which is all that an algorithm which
settles one node after the other relies on.
-/

namespace Distances

variable {V : Type}

/-- A walk of length `n`, where `edge a c b` is an edge of length `c`. -/
inductive Walk (edge : V → Nat → V → Prop) (a : V) : Nat → V → Prop where
  | here : Walk edge a 0 a
  | step {n c : Nat} {b d : V} : Walk edge a n b → edge b c d → Walk edge a (n + c) d

/-- `d` is the distance of `b`, with `inf` for the nodes to which there is no walk. -/
def Distance (edge : V → Nat → V → Prop) (inf : Nat) (a b : V) (d : Nat) : Prop :=
  IsLeast {n | Walk edge a n b} d ∨ d = inf ∧ ∀ n, ¬ Walk edge a n b

variable {edge : V → Nat → V → Prop} {inf : Nat} {a b : V} {n : Nat}

theorem Walk.single {c : Nat} (step : edge a c b) : Walk edge a c b := by
  have walk := Walk.here.step step
  rwa [Nat.zero_add] at walk

/-- A walk that visits no node twice. The list holds the nodes visited, the last one first. -/
inductive Path (edge : V → Nat → V → Prop) (a : V) : Nat → List V → V → Prop where
  | here : Path edge a 0 [a] a
  | step {n c : Nat} {p : List V} {b d : V} : Path edge a n p b → edge b c d → d ∉ p → Path edge a (n + c) (d :: p) d

theorem Path.walk {p : List V} (path : Path edge a n p b) : Walk edge a n b := by
  induction path with
  | here => exact .here
  | step _ last _ ih => exact ih.step last

/-- The part of a path up to one of its nodes. -/
theorem Path.cut {p : List V} (path : Path edge a n p b) {d : V} (hd : d ∈ p) :
    ∃ m q, m ≤ n ∧ Path edge a m q d := by
  induction path with
  | here =>
      rw [List.mem_singleton.mp hd]
      exact ⟨0, [a], le_refl _, .here⟩
  | @step n c p b e path last fresh ih =>
      rcases List.mem_cons.mp hd with rfl | hd
      · exact ⟨_, _, le_refl _, path.step last fresh⟩
      · obtain ⟨m, q, le, cut⟩ := ih hd
        exact ⟨m, q, by omega, cut⟩

/-- A walk is no shorter than some path. -/
theorem Walk.path (walk : Walk edge a n b) : ∃ m p, m ≤ n ∧ Path edge a m p b := by
  induction walk with
  | here => exact ⟨0, [a], le_refl _, .here⟩
  | @step n c b d _ last ih =>
      obtain ⟨m, p, le, path⟩ := ih
      by_cases hd : d ∈ p
      · obtain ⟨m', q, le', cut⟩ := path.cut hd
        exact ⟨m', q, by omega, cut⟩
      · exact ⟨m + c, d :: p, by omega, path.step last hd⟩

/-- No walk is longer than a potential which no edge lowers. -/
theorem Walk.le_potential {φ : V → Nat} (rises : ∀ u c v, edge u c v → φ u + c ≤ φ v) (walk : Walk edge a n b) :
    n ≤ φ b := by
  induction walk with
  | here => exact Nat.zero_le _
  | step _ last ih => exact (Nat.add_le_add_right ih _).trans (rises _ _ _ last)

/-- A walk out of a set of nodes. -/
theorem Walk.crossing {S : V → Prop} (ha : S a) (walk : Walk edge a n b) (hb : ¬ S b) :
    ∃ u v m c, S u ∧ ¬ S v ∧ Walk edge a m u ∧ edge u c v ∧ m + c ≤ n := by
  induction walk with
  | here => exact absurd ha hb
  | @step n c u v walk last ih =>
      by_cases hu : S u
      · exact ⟨u, v, n, c, hu, hb, walk, last, le_refl _⟩
      · obtain ⟨u', v', m, c', hu', hv', walk', edge', le⟩ := ih hu
        exact ⟨u', v', m, c', hu', hv', walk', edge', by omega⟩

theorem Distance.self : Distance edge inf a a 0 := .inl ⟨.here, fun _ _ => Nat.zero_le _⟩

theorem Distance.unique {d d' : Nat} (dist : Distance edge inf a b d) (dist' : Distance edge inf a b d') : d = d' := by
  rcases dist with least | ⟨rfl, none⟩ <;> rcases dist' with least' | ⟨rfl, none'⟩
  · exact least.unique least'
  · exact absurd least.1 (none' _)
  · exact absurd least'.1 (none _)
  · rfl

/-- The labels of the nodes while some of them are settled: `D` is the distance
    of a settled node, and of another one `inside` what the edges from settled
    nodes give. -/
structure Labels (edge : V → Nat → V → Prop) (inf : Nat) (a : V) (inside settled : V → Prop) (D : V → Nat) :
    Prop where
  source : settled a
  least : ∀ u, settled u → IsLeast {n | Walk edge a n u} (D u)
  walk : ∀ v, inside v → ¬ settled v → D v = inf ∨ Walk edge a (D v) v
  relaxed : ∀ u c v, settled u → ¬ settled v → edge u c v → D v ≤ D u + c

namespace Labels

variable {inside settled : V → Prop} {D : V → Nat} {k : V}

/-- The label of a node which is not settled is no greater than a walk to it,
    if it is the least of these labels. -/
theorem le_walk (labels : Labels edge inf a inside settled D) (open_ : ¬ settled k)
    (low : ∀ u c v, ¬ settled v → edge u c v → D k ≤ D v) (walk : Walk edge a n k) : D k ≤ n := by
  obtain ⟨u, v, m, c, hu, hv, short, crossing, le⟩ := walk.crossing labels.source open_
  have first : D u ≤ m := (labels.least u hu).2 short
  have second := labels.relaxed u c v hu hv crossing
  have third := low u c v hv crossing
  omega

/-- The least label is the distance. -/
theorem settle (labels : Labels edge inf a inside settled D) (hk : inside k) (open_ : ¬ settled k)
    (finite : D k ≠ inf) (low : ∀ u c v, ¬ settled v → edge u c v → D k ≤ D v) :
    IsLeast {n | Walk edge a n k} (D k) :=
  ⟨(labels.walk k hk open_).resolve_left finite, fun _ walk => labels.le_walk open_ low walk⟩

/-- If no label is left which is not `inf`, no walk leads to a node which is not settled. -/
theorem unreachable (labels : Labels edge inf a inside settled D) (open_ : ¬ settled k)
    (all : ∀ u c v, ¬ settled v → edge u c v → D v = inf)
    (below : ∀ u c v, settled u → edge u c v → ¬ settled v → D u + c < inf) : ¬ Walk edge a n k := by
  intro walk
  obtain ⟨u, v, m, c, hu, hv, -, crossing, -⟩ := walk.crossing labels.source open_
  have first := labels.relaxed u c v hu hv crossing
  have second := all u c v hv crossing
  have third := below u c v hu crossing hv
  omega

end Labels

end Distances
