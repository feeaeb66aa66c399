import Mathlib.Data.Set.Card
import Mathlib.Order.CompletePartialOrder
import Mathlib.Tactic

/-! # Loops which count

What every pass of a loop adds to a count is added over the whole loop. Two
nested loops over lists without repetitions count pairs.
-/

namespace Counting

variable {σ α β : Type}

theorem foldl_count (count : σ → Nat) (f : σ → α → σ) (g : α → Nat) (xs : List α) (s : σ)
    (step : ∀ x ∈ xs, ∀ s, count (f s x) = count s + g x) :
    count (xs.foldl f s) = count s + (xs.map g).sum := by
  induction xs generalizing s with
  | nil => simp
  | cons x xs ih =>
      rw [List.foldl_cons, ih _ fun y hy => step y (List.mem_cons_of_mem x hy), step x List.mem_cons_self,
        List.map_cons, List.sum_cons, Nat.add_assoc]

/-- A loop whose passes could fail, and do not. -/
theorem foldlM_count (count : σ → Nat) (f : σ → α → Option σ) (g : α → Nat) (xs : List α) (s : σ)
    (step : ∀ x ∈ xs, ∀ s, ∃ s', f s x = some s' ∧ count s' = count s + g x) :
    ∃ s', xs.foldlM f s = some s' ∧ count s' = count s + (xs.map g).sum := by
  induction xs generalizing s with
  | nil => exact ⟨s, rfl, by simp⟩
  | cons x xs ih =>
      obtain ⟨s', first, more⟩ := step x List.mem_cons_self s
      obtain ⟨s'', rest, most⟩ := ih s' fun y hy => step y (List.mem_cons_of_mem x hy)
      refine ⟨s'', by rw [List.foldlM_cons, first]; exact rest, ?_⟩
      rw [most, more, List.map_cons, List.sum_cons, Nat.add_assoc]

/-- A loop whose passes add to a count as long as it stays below a bound. -/
theorem foldlM_bounded {bound : Nat} (f : Nat → α → Option Nat) (g : α → Nat) (xs : List α) (n : Nat)
    (step : ∀ x ∈ xs, ∀ n, n + g x < bound → f n x = some (n + g x)) (fits : n + (xs.map g).sum < bound) :
    xs.foldlM f n = some (n + (xs.map g).sum) := by
  induction xs generalizing n with
  | nil => simp
  | cons x xs ih =>
      rw [List.map_cons, List.sum_cons, ← Nat.add_assoc] at fits
      have first := step x List.mem_cons_self n (by omega)
      rw [List.foldlM_cons, first, List.map_cons, List.sum_cons, ← Nat.add_assoc]
      exact ih (n + g x) (fun y hy => step y (List.mem_cons_of_mem x hy)) fits

variable {xs : List α} {f : α → List β} {test : α → β → Prop}

theorem sum_indicator (ys : List β) (p : β → Prop) [DecidablePred p] :
    (ys.map fun y => if p y then 1 else 0).sum = (ys.filter p).length := by
  induction ys with
  | nil => rfl
  | cons y ys ih =>
      rw [List.map_cons, List.sum_cons, ih, List.filter_cons]
      by_cases hy : p y
      · simp [hy, Nat.add_comm]
      · simp [hy]

/-- Two nested loops. -/
theorem sum_pairs [∀ x y, Decidable (test x y)] (nodup : xs.Nodup) (each : ∀ x ∈ xs, (f x).Nodup) :
    (xs.map fun x => ((f x).map fun y => if test x y then 1 else 0).sum).sum =
      {p : α × β | p.1 ∈ xs ∧ p.2 ∈ f p.1 ∧ test p.1 p.2}.ncard := by
  classical
  have pairs : (xs.flatMap fun x => ((f x).filter (test x)).map (Prod.mk x)).Nodup := by
    refine List.nodup_flatMap.mpr ⟨fun x hx => ?_, ?_⟩
    · exact ((each x hx).filter _).map (Prod.mk_right_injective x)
    · refine nodup.imp fun other => ?_
      intro p hx hy
      simp only [List.mem_map] at hx hy
      obtain ⟨_, -, rfl⟩ := hx
      obtain ⟨_, -, same⟩ := hy
      exact other (Prod.mk.inj same).1.symm
  have same : {p : α × β | p.1 ∈ xs ∧ p.2 ∈ f p.1 ∧ test p.1 p.2} =
      ↑(xs.flatMap fun x => ((f x).filter (test x)).map (Prod.mk x)).toFinset := by
    ext ⟨x, y⟩
    simp only [Set.mem_ofPred_eq, List.coe_toFinset, List.mem_flatMap, List.mem_map, List.mem_filter,
      decide_eq_true_eq, Prod.mk.injEq]
    constructor
    · rintro ⟨hx, hy, passes⟩
      exact ⟨x, hx, y, ⟨hy, passes⟩, rfl, rfl⟩
    · rintro ⟨_, hx, _, ⟨hy, passes⟩, rfl, rfl⟩
      exact ⟨hx, hy, passes⟩
  rw [same, Set.ncard_coe_finset, List.toFinset_card_of_nodup pairs, List.length_flatMap]
  simp only [List.length_map, sum_indicator]

/-- Two nested loops over lists with additional entries. -/
theorem sum_extended [∀ x y, Decidable (test x y)] {xs ds ws : List α}
    {ys ds' ws' : α → List β} (outer : (↑xs : Multiset α) = ↑ds + ↑ws)
    (inner : ∀ x ∈ xs, (↑(ys x) : Multiset β) = ↑(ds' x) + ↑(ws' x)) :
    ∃ more, (xs.map fun x => ((ys x).map fun y => if test x y then 1 else 0).sum).sum =
        (ds.map fun x => ((ds' x).map fun y => if test x y then 1 else 0).sum).sum + more ∧
      (more = 0 ↔ ¬ ∃ x ∈ xs, ∃ y ∈ ys x, test x y ∧ (x ∈ ws ∨ y ∈ ws' x)) := by
  have members : ∀ x, x ∈ xs ↔ x ∈ ds ∨ x ∈ ws := fun x => by
    rw [← Multiset.mem_coe, outer, Multiset.mem_add, Multiset.mem_coe, Multiset.mem_coe]
  have members' : ∀ x ∈ xs, ∀ y, y ∈ ys x ↔ y ∈ ds' x ∨ y ∈ ws' x := fun x hx y => by
    rw [← Multiset.mem_coe, inner x hx, Multiset.mem_add, Multiset.mem_coe, Multiset.mem_coe]
  have split : ∀ x ∈ ds, ((ys x).map fun y => if test x y then 1 else 0).sum =
      ((ds' x).map fun y => if test x y then 1 else 0).sum + ((ws' x).map fun y => if test x y then 1 else 0).sum := by
    intro x hx
    have perm : (ys x).Perm (ds' x ++ ws' x) := Multiset.coe_eq_coe.mp (inner x ((members x).mpr (.inl hx)))
    rw [(perm.map _).sum_eq, List.map_append, List.sum_append]
  have perm : xs.Perm (ds ++ ws) := Multiset.coe_eq_coe.mp outer
  refine ⟨(ds.map fun x => ((ws' x).map fun y => if test x y then 1 else 0).sum).sum +
    (ws.map fun x => ((ys x).map fun y => if test x y then 1 else 0).sum).sum, ?_, ?_⟩
  · rw [(perm.map _).sum_eq, List.map_append, List.sum_append, List.map_congr_left split, List.sum_map_add, add_assoc]
  · have zero : ∀ zs : List α, ∀ f : α → List β,
        ((zs.map fun x => ((f x).map fun y => if test x y then 1 else 0).sum).sum = 0 ↔
          ∀ x ∈ zs, ∀ y ∈ f x, ¬ test x y) := fun zs f => by
      simp [List.sum_eq_zero_iff]
    rw [Nat.add_eq_zero_iff, zero, zero]
    constructor
    · rintro ⟨first, second⟩ ⟨x, hx, y, hy, passes, weight⟩
      cases (members x).mp hx with
      | inr weighed => exact second x weighed y hy passes
      | inl stored =>
          cases weight with
          | inl weighed => exact second x weighed y hy passes
          | inr last => exact first x stored y last passes
    · intro none
      refine ⟨fun x hx y hy passes => none ⟨x, ?_, y, ?_, passes, .inr hy⟩,
        fun x hx y hy passes => none ⟨x, ?_, y, hy, passes, .inl hx⟩⟩
      · exact (members x).mpr (.inl hx)
      · exact (members' x ((members x).mpr (.inl hx)) y).mpr (.inr hy)
      · exact (members x).mpr (.inr hx)

/-- The members of some sets without a common one. -/
theorem ncard_family {A : α → Set β} (finite : ∀ x ∈ xs, (A x).Finite)
    (apart : xs.Pairwise fun x y => Disjoint (A x) (A y)) :
    {b | ∃ x ∈ xs, b ∈ A x}.Finite ∧ {b | ∃ x ∈ xs, b ∈ A x}.ncard = (xs.map fun x => (A x).ncard).sum := by
  induction xs with
  | nil => simp
  | cons x xs ih =>
      obtain ⟨head, tail⟩ := List.pairwise_cons.mp apart
      obtain ⟨rest, count⟩ := ih (fun y hy => finite y (List.mem_cons_of_mem x hy)) tail
      have split : {b | ∃ y ∈ x :: xs, b ∈ A y} = A x ∪ {b | ∃ y ∈ xs, b ∈ A y} := by
        ext b
        simp
      have first := finite x List.mem_cons_self
      rw [split]
      refine ⟨first.union rest, ?_⟩
      rw [Set.ncard_union_eq _ first rest, count, List.map_cons, List.sum_cons]
      rw [Set.disjoint_left]
      rintro b here ⟨y, hy, there⟩
      exact Set.disjoint_left.mp (head y hy) here there

/-- A sum over a list of names without repetitions is one over all that can be named. -/
theorem sum_support {M : Type} [AddCommMonoid M] [Fintype β] [DecidableEq β] (xs : List α) (f : α → β) (g : α → M)
    (G : β → M) (nodup : (xs.map f).Nodup) (each : ∀ x ∈ xs, g x = G (f x)) (rest : ∀ b, b ∉ xs.map f → G b = 0) :
    (xs.map g).sum = ∑ b, G b := by
  have inside : (xs.map g).sum = ((xs.map f).map G).sum := by
    rw [List.map_map]
    exact congrArg List.sum (List.map_congr_left each)
  rw [inside, ← List.sum_toFinset G nodup]
  exact Finset.sum_subset (Finset.subset_univ _) fun b _ away => rest b fun here => away (List.mem_toFinset.mpr here)

end Counting
