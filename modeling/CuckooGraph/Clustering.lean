import CuckooGraph.Counting
import CuckooGraph.Unweighted.Successors
import Mathlib.Data.List.Destutter
import Mathlib.Data.List.Sort
import Mathlib.Data.Rat.Cast.Order

/-! # Local clustering

`ours_Lcc` collects the neighbours of each vertex in either direction, then counts
the edges between them. The edges are found from `u` in `GetNeighbors`, but `w` is
accepted if `v` is a neighbour of `w`, not if `w` is one of `v`.
-/

namespace CuckooGraph

open TwoLayer Holemerge

/-- How a `double` is rounded. -/
structure Double where
  round : ℚ → ℚ
  mono : Monotone round
  exact : ∀ n : Nat, n < 2 ^ 53 → round n = n

/-- `insert` of a `std::set`, which is listed in increasing order. -/
def setInsert (x : Key) (xs : List Key) : List Key := if x ∈ xs then xs else xs.orderedInsert (· ≤ ·) x

/-- The order of `Neighbor`. -/
def Before (a b : Key × Nat) : Prop := a.1 < b.1 ∨ a.1 = b.1 ∧ a.2 ≤ b.2

instance : DecidableRel Before := fun _ _ => inferInstanceAs (Decidable (_ ∨ _))

/-- `sort`, then `unique`. -/
def distinct (neighbors : List (Key × Nat)) : List (Key × Nat) :=
  (neighbors.insertionSort Before).destutter (· ≠ ·)

/-- The maps of `ours_Lcc`. A key which is not in a map has the default value. -/
structure Lcc where
  inAndOutNeighbors : Key → List Key
  numOfNeighbors : Key → Nat

namespace Lcc

/-- `x` is made a neighbour of `v`. -/
def join (l : Lcc) (v x : Key) : Lcc :=
  if x ∈ l.inAndOutNeighbors v then l
  else { inAndOutNeighbors := Function.update l.inAndOutNeighbors v (setInsert x (l.inAndOutNeighbors v)),
         numOfNeighbors := Function.update l.numOfNeighbors v (l.numOfNeighbors v + 1) }

def record (l : Lcc) (e : Edge) : Lcc := (l.join e.src e.dst).join e.dst e.src

/-- The precomputation over `asrc` and `adst`. -/
def precompute (es : List Edge) : Lcc := es.foldl record ⟨fun _ => [], fun _ => 0⟩

/-- `t` for the vertex `v`. -/
def count (neighbors : Key → List (Key × Nat)) (l : Lcc) (v : Key) : Nat :=
  (l.inAndOutNeighbors v).foldl (fun t u => (distinct (neighbors u)).foldl (fun t temp =>
    if temp.1 = u then t else if v ∈ l.inAndOutNeighbors temp.1 then t + 1 else t) t) 0

/-- The quotient for `t` and `d`. -/
def quotient (double : Double) (t d : Nat) : ℚ :=
  double.round (double.round t / double.round (double.round d * double.round ↑(d - 1)))

/-- The loop over `V`. -/
def lcc (double : Double) (neighbors : Key → List (Key × Nat)) (l : Lcc) (V : List Key) : Key → ℚ :=
  V.foldl (fun lcc v =>
    if l.numOfNeighbors v ≤ 1 then lcc
    else Function.update lcc v (quotient double (count neighbors l v) (l.numOfNeighbors v))) fun _ => 0

end Lcc

/-- The set `vertex`. -/
def vertex (es : List Edge) : List Key := es.foldl (fun vs e => setInsert e.dst (setInsert e.src vs)) []

/-- If `ours_Lcc` warns of a value greater than 1. -/
def lccWarns (double : Double) (neighbors : Key → List (Key × Nat)) (es : List Edge) : Bool :=
  (vertex es).any fun v => decide (1 < Lcc.lcc double neighbors (Lcc.precompute es) (vertex es) v)

/-- The ids adjacent to `v`. -/
def adjacent (es : List Edge) (v : Key) : Set Key := {x | ⟨v, x⟩ ∈ es ∨ ⟨x, v⟩ ∈ es}

/-- The edges between two neighbours of `v`. -/
def between (es : List Edge) (v : Key) : Set (Key × Key) :=
  {p | p.1 ∈ adjacent es v ∧ p.2 ∈ adjacent es v ∧ p.2 ≠ p.1 ∧ ⟨p.1, p.2⟩ ∈ es}

theorem adjacent_symm {es : List Edge} {v x : Key} : x ∈ adjacent es v ↔ v ∈ adjacent es x := or_comm

@[simp] theorem mem_setInsert {x y : Key} {xs : List Key} : y ∈ setInsert x xs ↔ y = x ∨ y ∈ xs := by
  simp only [setInsert]
  split
  · rename_i here
    exact ⟨.inr, fun hy => hy.elim (fun same => same ▸ here) id⟩
  · exact List.mem_orderedInsert _

theorem nodup_setInsert {x : Key} {xs : List Key} (once : xs.Nodup) : (setInsert x xs).Nodup := by
  simp only [setInsert]
  split
  · exact once
  · rename_i new
    exact (List.perm_orderedInsert (· ≤ ·) x xs).nodup_iff.mpr (List.nodup_cons.mpr ⟨new, once⟩)

/-- Nothing is removed from a list without repetitions. -/
theorem distinct_perm {neighbors : List (Key × Nat)} (once : neighbors.Nodup) :
    (distinct neighbors).Perm neighbors := by
  have sorted := List.perm_insertionSort Before neighbors
  have apart : (neighbors.insertionSort Before).IsChain (· ≠ ·) :=
    (sorted.nodup_iff.mpr once).isChain
  rwa [distinct, List.destutter_of_isChain (· ≠ ·) _ apart]

namespace Lcc

/-- The maps say which ids are adjacent. -/
structure Records (l : Lcc) (R : Key → Key → Prop) : Prop where
  once : ∀ v, (l.inAndOutNeighbors v).Nodup
  members : ∀ v x, x ∈ l.inAndOutNeighbors v ↔ R v x
  counted : ∀ v, l.numOfNeighbors v = (l.inAndOutNeighbors v).length

variable {l : Lcc} {R : Key → Key → Prop}

theorem Records.join (r : l.Records R) (v x : Key) :
    (l.join v x).Records fun a b => R a b ∨ a = v ∧ b = x := by
  simp only [Lcc.join]
  split
  · rename_i here
    refine ⟨r.once, fun a b => ?_, r.counted⟩
    rw [r.members a b]
    constructor
    · exact .inl
    · rintro (there | ⟨rfl, rfl⟩)
      · exact there
      · exact (r.members _ _).mp here
  · rename_i new
    have longer : (setInsert x (l.inAndOutNeighbors v)).length = (l.inAndOutNeighbors v).length + 1 := by
      rw [setInsert, if_neg new, List.orderedInsert_length]
    constructor
    · intro a
      by_cases here : a = v
      · subst here
        simpa using nodup_setInsert (r.once a)
      · simpa [here] using r.once a
    · intro a b
      by_cases here : a = v
      · subst here
        simp [r.members, or_comm]
      · simp [here, r.members]
    · intro a
      by_cases here : a = v
      · subst here
        simp [longer, r.counted]
      · simp [here, r.counted]

theorem Records.foldl (es : List Edge) (r : l.Records R) :
    (es.foldl record l).Records fun v x => R v x ∨ x ∈ adjacent es v := by
  induction es generalizing l R with
  | nil => simpa [adjacent] using r
  | cons e es ih =>
      have both := ih ((r.join e.src e.dst).join e.dst e.src)
      have same : (fun v x => ((R v x ∨ v = e.src ∧ x = e.dst) ∨ v = e.dst ∧ x = e.src) ∨ x ∈ adjacent es v) =
          fun v x => R v x ∨ x ∈ adjacent (e :: es) v := by
        funext v x
        cases e
        simp only [adjacent, Set.mem_ofPred_eq, List.mem_cons, Edge.mk.injEq, eq_iff_iff]
        tauto
      rwa [same] at both

theorem precompute_records (es : List Edge) : (precompute es).Records fun v x => x ∈ adjacent es v := by
  have start : Records ⟨fun _ => [], fun _ => 0⟩ fun _ _ => False :=
    ⟨fun _ => List.nodup_nil, fun _ _ => by simp, fun _ => rfl⟩
  simpa [precompute] using start.foldl es

/-- The two loops for `v`. -/
theorem count_eq {neighbors : Key → List (Key × Nat)} {next : Key → List Key}
    (listed : ∀ u, neighbors u = (next u).map (·, 1)) (once : ∀ u, (next u).Nodup) (l : Lcc) (v : Key) :
    l.count neighbors v = ((l.inAndOutNeighbors v).map fun u => ((next u).map fun w =>
      if w ≠ u ∧ v ∈ l.inAndOutNeighbors w then 1 else 0).sum).sum := by
  have inner : ∀ u t, (distinct (neighbors u)).foldl (fun t temp =>
      if temp.1 = u then t else if v ∈ l.inAndOutNeighbors temp.1 then t + 1 else t) t =
      t + ((next u).map fun w => if w ≠ u ∧ v ∈ l.inAndOutNeighbors w then 1 else 0).sum := by
    intro u t
    have nodup : (neighbors u).Nodup := by
      rw [listed]
      exact (once u).map fun a b same => (Prod.mk.inj same).1
    have total := Counting.foldl_count id (fun t (temp : Key × Nat) =>
      if temp.1 = u then t else if v ∈ l.inAndOutNeighbors temp.1 then t + 1 else t)
      (fun temp => if temp.1 ≠ u ∧ v ∈ l.inAndOutNeighbors temp.1 then 1 else 0) (distinct (neighbors u)) t
      fun temp _ t => by
        by_cases self : temp.1 = u
        · simp [self]
        · by_cases back : v ∈ l.inAndOutNeighbors temp.1 <;> simp [self, back]
    have same := ((distinct_perm nodup).map fun temp : Key × Nat =>
      if temp.1 ≠ u ∧ v ∈ l.inAndOutNeighbors temp.1 then 1 else 0).sum_eq
    rw [id, id, same] at total
    rw [total, listed, List.map_map]
    rfl
  have outer := Counting.foldl_count id _ _ (l.inAndOutNeighbors v) 0 fun u _ t => inner u t
  exact outer.trans (Nat.zero_add _)

/-- A quotient of at most 1 is not rounded to more. -/
theorem quotient_le (double : Double) {t d : Nat} (few : t ≤ d * (d - 1)) (small : d < 2 ^ 53) :
    quotient double t d ≤ 1 := by
  have below : d - 1 < 2 ^ 53 := (Nat.sub_le d 1).trans_lt small
  have one : double.round 1 = 1 := by exact_mod_cast double.exact 1 (by decide)
  have zero : double.round 0 = 0 := by exact_mod_cast double.exact 0 (by decide)
  have less : double.round t ≤ double.round (d * (d - 1 : Nat)) := by
    apply double.mono
    exact_mod_cast few
  have nonneg : 0 ≤ double.round (d * (d - 1 : Nat)) := by
    rw [← zero]
    apply double.mono
    positivity
  rw [quotient, double.exact d small, double.exact (d - 1) below, ← one]
  apply double.mono
  exact div_le_one_of_le₀ less nonneg

/-- No vertex has a value greater than 1 if no quotient is. -/
theorem lcc_le {double : Double} {neighbors : Key → List (Key × Nat)} {l : Lcc}
    (each : ∀ v, quotient double (l.count neighbors v) (l.numOfNeighbors v) ≤ 1) (V : List Key) (x : Key) :
    l.lcc double neighbors V x ≤ 1 := by
  suffices run : ∀ values : Key → ℚ, (∀ x, values x ≤ 1) → V.foldl (fun lcc v =>
      if l.numOfNeighbors v ≤ 1 then lcc
      else Function.update lcc v (quotient double (count neighbors l v) (l.numOfNeighbors v))) values x ≤ 1 by
    exact run _ fun _ => zero_le_one
  induction V with
  | nil => exact fun values le => le x
  | cons v V ih =>
      intro values le
      apply ih
      intro y
      dsimp only
      split
      · exact le y
      · by_cases here : y = v
        · subst here
          simpa using each y
        · simpa [here] using le y

end Lcc

section Counts

variable {es : List Edge}

theorem adjacent_finite (inside : ∀ e ∈ es, IsId e.src ∧ IsId e.dst) (v : Key) :
    (adjacent es v).Finite ∧ (adjacent es v).ncard < 2 ^ 32 := by
  apply ids_few
  rintro x (out | back)
  · exact (inside _ out).2
  · exact (inside _ back).1

/-- There is one edge at most for two neighbours in either order. -/
theorem between_le {v : Key} (finite : (adjacent es v).Finite) :
    (between es v).ncard ≤ (adjacent es v).ncard * ((adjacent es v).ncard - 1) := by
  classical
  obtain ⟨N, same⟩ := finite.exists_finset_coe
  have pairs : between es v ⊆ ↑N.offDiag := by
    rintro ⟨u, w⟩ ⟨hu, hw, other, -⟩
    rw [← same] at hu hw
    exact Finset.mem_coe.mpr (Finset.mem_offDiag.mpr ⟨hu, hw, other.symm⟩)
  have few := Set.ncard_le_ncard pairs (Finset.finite_toSet _)
  rw [Set.ncard_coe_finset, Finset.offDiag_card] at few
  rw [← same, Set.ncard_coe_finset, Nat.mul_sub_one]
  exact few

/-- After any insertions `d` is the number of neighbours, `t` is that of the edges
    between them, and nothing is warned of. -/
theorem oursLcc_exact (E : Env) {l1 l2 : Nat} (sizes : 2 ≤ l2 ∧ l2 ≤ l1) (s1 s2 : Int) (double : Double)
    (inside : ∀ e ∈ es, IsId e.src ∧ IsId e.dst) :
    let s := insertEdges E (Memory.initial, fresh l1 l2 s1 s2) es
    let neighbors := s.2.getNeighbors E s.1
    let l := Lcc.precompute es
    (∀ v, l.numOfNeighbors v = (adjacent es v).ncard ∧ l.count neighbors v = (between es v).ncard ∧
      l.count neighbors v ≤ l.numOfNeighbors v * (l.numOfNeighbors v - 1)) ∧
      lccWarns double neighbors es = false := by
  intro s neighbors l
  have known : ∀ e ∈ es, e.src ≠ 0 ∧ e.dst ≠ 0 := fun e he => ⟨(inside e he).1.1, (inside e he).2.1⟩
  choose listed once members using fun u => getNeighbors_insertEdges E sizes s1 s2 known u
  have records : l.Records fun v x => x ∈ adjacent es v := Lcc.precompute_records es
  have degree : ∀ v, l.numOfNeighbors v = (adjacent es v).ncard := by
    intro v
    have same : adjacent es v = ↑(l.inAndOutNeighbors v).toFinset := by
      ext x
      simp [records.members]
    rw [records.counted, same, Set.ncard_coe_finset, List.toFinset_card_of_nodup (records.once v)]
  have edges : ∀ v, l.count neighbors v = (between es v).ncard := by
    intro v
    rw [Lcc.count_eq listed once, Counting.sum_pairs (records.once v) fun u _ => once u, between]
    congr 1
    ext ⟨u, w⟩
    simp only [Set.mem_ofPred_eq, records.members, adjacent_symm (v := w), members]
    tauto
  have few : ∀ v, l.count neighbors v ≤ l.numOfNeighbors v * (l.numOfNeighbors v - 1) := by
    intro v
    rw [edges, degree]
    exact between_le (adjacent_finite inside v).1
  refine ⟨fun v => ⟨degree v, edges v, few v⟩, ?_⟩
  have below : ∀ v, Lcc.quotient double (l.count neighbors v) (l.numOfNeighbors v) ≤ 1 := by
    intro v
    apply Lcc.quotient_le double (few v)
    rw [degree]
    exact (adjacent_finite inside v).2.trans (by decide)
  rw [lccWarns, List.any_eq_false]
  intro v _
  simpa using Lcc.lcc_le below (vertex es) v

/-- A triangle with a self-loop, one of its edges being inserted twice. -/
theorem oursLcc_exact_triangle :
    let es : List Edge := [⟨1, 2⟩, ⟨2, 3⟩, ⟨3, 1⟩, ⟨1, 1⟩, ⟨1, 2⟩]
    let s := insertEdges colliding (Memory.initial, fresh bl1 bl2 0 221) es
    (Lcc.precompute es).numOfNeighbors 1 = 3 ∧ (between es 1).ncard = 3 ∧
      lccWarns ⟨id, monotone_id, fun _ _ => rfl⟩ (s.2.getNeighbors colliding s.1) es = false := by
  intro es s
  obtain ⟨each, quiet⟩ := oursLcc_exact colliding default_sizes 0 221 ⟨id, monotone_id, fun _ _ => rfl⟩
    (by simp [es, IsId] : ∀ e ∈ es, IsId e.src ∧ IsId e.dst)
  refine ⟨by decide, ?_, quiet⟩
  rw [← (each 1).2.1]
  decide +kernel

end Counts

end CuckooGraph
