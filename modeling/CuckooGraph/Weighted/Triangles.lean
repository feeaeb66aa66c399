import CuckooGraph.Triangles
import CuckooGraph.Weighted.Listing

/-! # Triangles in the weighted build

`query_triangles` takes all that `query_successor` lists for ids, also the weights of a source
which is stored inline. It counts each triangle, and in addition what a weight makes look like one.
-/

namespace CuckooGraph

namespace Weighted

open TwoLayer Holemerge

section Calls

variable (E : Env) (m : Memory Cell) (h : Holemerge Cell) (src : Key)

/-- `query_triangles`. The arrays are `successor1` and `precursor1`. -/
def queryTriangles (successor1 precursor1 : Buffer) : Nat :=
  let (successor1, sum) := querySuccessor E m h src successor1 0
  ((List.range sum).foldl (fun (s : Buffer × Nat) i =>
    let (precursor1, sum2) := querySuccessor E m h (successor1 i) s.1 0
    (precursor1, (List.range sum2).foldl (fun cnt j =>
      if precursor1 j ≠ successor1 i ∧ successor1 i ≠ src ∧ precursor1 j ≠ src ∧
          query E m h ⟨precursor1 j, src⟩ ≠ 0 then cnt + 1 else cnt) s.2)) (precursor1, 0)).2

/-- What is asked of two ids which are listed one after the other. -/
def Closes (x y : Key) : Prop := y ≠ x ∧ x ≠ src ∧ y ≠ src ∧ query E m h ⟨y, src⟩ ≠ 0

instance (x y : Key) : Decidable (Closes E m h src x y) := inferInstanceAs (Decidable (_ ∧ _))

/-- Two ids are counted, and one of them is a weight. -/
def Misread : Prop :=
  ∃ x ∈ successorIds E m h src, ∃ y ∈ successorIds E m h x,
    Closes E m h src x y ∧ (x ∈ weightIds E h src ∨ y ∈ weightIds E h x)

instance : Decidable (Misread E m h src) :=
  inferInstanceAs (Decidable (∃ x ∈ successorIds E m h src, ∃ y ∈ successorIds E m h x, _ ∧ _))

end Calls

theorem weightIds_ne_zero {E : Env} {h : Holemerge Cell} {src x : Key} (weight : x ∈ weightIds E h src) : x ≠ 0 := by
  rw [weightIds] at weight
  split at weight
  · rename_i b found
    rw [BSlot.weights] at weight
    split at weight
    · cases weight
    · split at weight
      · cases weight
      · simpa using (List.mem_filter.mp weight).2
  · cases weight

/-- All triangles are counted. No more is counted exactly if no weight is misread. -/
theorem queryTriangles_iff (E : Env) {l1 l2 : Nat} (sizes : 2 ≤ l2 ∧ l2 ≤ l1) (s1 s2 : Int) (ws : List (Edge × UInt32))
    (known : ∀ p ∈ ws, p.1.src ≠ 0 ∧ p.1.dst ≠ 0) (positive : ∀ p ∈ ws, p.2 ≠ 0) (bounded : ∀ e, sumOf ws e < 2 ^ 32)
    {src : Key} (hs : src ≠ 0) (b1 b2 : Buffer) :
    let s := weighted E s1 s2 ws l1 l2
    triangles (ws.map Prod.fst) src ≤ queryTriangles E s.1 s.2 src b1 b2 ∧
      (queryTriangles E s.1 s.2 src b1 b2 = triangles (ws.map Prod.fst) src ↔ ¬ Misread E s.1 s.2 src) := by
  intro s
  have whole : Whole E s.1 s.2 := weighted_whole E sizes s1 s2 ws known
  have inserted : ∀ {e : Edge}, e ∈ ws.map Prod.fst → e.src ≠ 0 ∧ e.dst ≠ 0 := by
    intro e he
    obtain ⟨p, hp, rfl⟩ := List.mem_map.mp he
    exact known p hp
  have sources : ∀ x, ∃ ids : List Key, ids.Nodup ∧ (∀ d, d ∈ ids ↔ ⟨x, d⟩ ∈ ws.map Prod.fst) ∧
      (x ≠ 0 → (↑(successorIds E s.1 s.2 x) : Multiset Key) = ↑ids + ↑(weightIds E s.2 x)) := by
    intro x
    by_cases zero : x = 0
    · refine ⟨[], List.nodup_nil, fun d => ?_, absurd zero⟩
      simp only [List.not_mem_nil, false_iff]
      exact fun here => (inserted here).1 zero
    · obtain ⟨ids, stored, once, -, listed, -⟩ := listed_ids whole zero
      refine ⟨ids, once, fun d => ?_, fun _ => listed⟩
      rw [← Multiset.mem_coe, stored]
      exact weighted_dsts E sizes s1 s2 ws known ⟨x, d⟩
  choose ids once members listed using sources
  have nonzero : ∀ x ∈ successorIds E s.1 s.2 src, x ≠ 0 := by
    intro x hx
    rw [← Multiset.mem_coe, listed src hs, Multiset.mem_add] at hx
    cases hx with
    | inl stored => exact (inserted ((members src x).mp stored)).2
    | inr weight => exact weightIds_ne_zero weight
  obtain ⟨more, sum, none⟩ := @Counting.sum_extended Key Key (Closes E s.1 s.2 src) _ _ _ _ _ ids
    (weightIds E s.2) (listed src hs) fun x hx => listed x (nonzero x hx)
  have counted : queryTriangles E s.1 s.2 src b1 b2 =
      ((successorIds E s.1 s.2 src).map fun x => ((successorIds E s.1 s.2 x).map fun y =>
        if Closes E s.1 s.2 src x y then 1 else 0).sum).sum :=
    @forward_loops (successorIds E s.1 s.2) src (querySuccessor E s.1 s.2) (fun y => query E s.1 s.2 ⟨y, src⟩ ≠ 0) _
      (querySuccessor_ids E s.1 s.2) b1 b2
  have exactly := @forward_triangles _ src ids once members (Closes E s.1 s.2 src) _ fun x y first second => by
    have closing : query E s.1 s.2 ⟨y, src⟩ ≠ 0 ↔ ⟨y, src⟩ ∈ ws.map Prod.fst :=
      (query_ne_zero E sizes s1 s2 ws known positive bounded (inserted second).2 hs).trans
        (weighted_dsts E sizes s1 s2 ws known ⟨y, src⟩)
    rw [Closes, closing]
    simp only [and_assoc]
  rw [counted, sum, exactly]
  refine ⟨Nat.le_add_right _ _, ?_⟩
  rw [Nat.add_eq_left]
  exact none

/-- A triangle is counted. Where there is none, the weight 3 is taken for a successor of 1. -/
theorem queryTriangles_iff_three :
    let s := weighted colliding 0 221 [(⟨1, 2⟩, 5), (⟨2, 3⟩, 5), (⟨3, 1⟩, 5)] bl1 bl2
    let t := weighted colliding 0 221 [(⟨1, 2⟩, 3), (⟨3, 4⟩, 5), (⟨4, 1⟩, 5)] bl1 bl2
    queryTriangles colliding s.1 s.2 1 (fun _ => 0) (fun _ => 0) = triangles [⟨1, 2⟩, ⟨2, 3⟩, ⟨3, 1⟩] 1 ∧
      triangles [⟨1, 2⟩, ⟨3, 4⟩, ⟨4, 1⟩] 1 < queryTriangles colliding t.1 t.2 1 (fun _ => 0) (fun _ => 0) := by
  have read := queryTriangles_iff colliding default_sizes 0 221 [(⟨1, 2⟩, 5), (⟨2, 3⟩, 5), (⟨3, 1⟩, 5)] (by decide)
    (by decide) (fun e => (sumOf_le _ e).trans_lt (by decide)) Int.one_ne_zero (fun _ => 0) (fun _ => 0)
  have misread := queryTriangles_iff colliding default_sizes 0 221 [(⟨1, 2⟩, 3), (⟨3, 4⟩, 5), (⟨4, 1⟩, 5)] (by decide)
    (by decide) (fun e => (sumOf_le _ e).trans_lt (by decide)) Int.one_ne_zero (fun _ => 0) (fun _ => 0)
  refine ⟨read.2.mpr (by decide), lt_of_le_of_ne misread.1 fun same => ?_⟩
  exact misread.2.mp same.symm (by decide)

end Weighted

end CuckooGraph
