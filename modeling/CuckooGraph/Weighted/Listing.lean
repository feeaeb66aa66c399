import CuckooGraph.Weighted.Successors

/-! # What is listed for a source in the weighted build

`GetNeighbors` lists the destinations which are stored. `query_successor` lists them too, and
with them the weights of a source which is stored inline.
-/

namespace CuckooGraph

namespace Weighted

open TwoLayer Holemerge

/-- The weights which `bSlot::query_successor` takes for ids. -/
def BSlot.weights (b : BSlot Cell) : List Key :=
  match b.body with
  | .chts _ => []
  | .inline pt cells => if pt = 0 then [] else (cells.map Cell.tail).filter (· ≠ 0)

section Sources

variable (E : Env) (m : Memory Cell) (h : Holemerge Cell) (src : Key)

/-- The ids which `query_successor` writes. -/
def successorIds : List Key :=
  match h.findSlot E src with
  | some b => BSlot.successors E m b src
  | none => []

/-- Those of them which are weights. -/
def weightIds : List Key :=
  match h.findSlot E src with
  | some b => BSlot.weights b
  | none => []

theorem querySuccessor_ids (buf : Buffer) (U : Nat) :
    querySuccessor E m h src buf U = buf.write U (successorIds E m h src) := by
  cases found : h.findSlot E src with
  | none => simp [querySuccessor, successorIds, found, Buffer.write]
  | some b => simp only [querySuccessor, successorIds, found]

end Sources

variable {E : Env} {m : Memory Cell} {h : Holemerge Cell} {src : Key} {b : BSlot Cell}

theorem BSlot.coe_neighbors (tidy : b.Tidy) (same : b.src = src) :
    (↑(BSlot.neighbors E m b src) : Multiset Key) = (b.items E m).map Cell.dst := by
  obtain ⟨s, body⟩ := b
  subst same
  cases body with
  | chts slot => exact coe_scanChts E m s slot
  | inline pt cells =>
      have inline : Inline s pt cells := tidy
      simp only [BSlot.neighbors, BSlot.items]
      split
      · rename_i zero
        rw [Multiset.card_eq_zero.mp (inline.count.trans zero)]
        rfl
      · rw [filled, Multiset.filter_coe, Multiset.map_coe, List.filter_map]
        rfl

/-- Whatever is listed is a destination or a weight. -/
theorem BSlot.coe_successors :
    (↑(BSlot.successors E m b src) : Multiset Key) = ↑(BSlot.neighbors E m b src) + ↑(BSlot.weights b) := by
  obtain ⟨s, body⟩ := b
  cases body with
  | chts slot => exact (add_zero _).symm
  | inline pt cells =>
      simp only [BSlot.successors, BSlot.neighbors, BSlot.weights]
      split
      · rfl
      · induction cells with
        | nil => rfl
        | cons c cells ih =>
            have cell : [c.dst, c.tail].filter (· ≠ 0) = [c.dst].filter (· ≠ 0) ++ [c.tail].filter (· ≠ 0) :=
              List.filter_append [c.dst] [c.tail]
            have dsts : (c.dst :: cells.map Cell.dst).filter (· ≠ 0) =
                [c.dst].filter (· ≠ 0) ++ (cells.map Cell.dst).filter (· ≠ 0) := List.filter_append [c.dst] _
            have tails : (c.tail :: cells.map Cell.tail).filter (· ≠ 0) =
                [c.tail].filter (· ≠ 0) ++ (cells.map Cell.tail).filter (· ≠ 0) := List.filter_append [c.tail] _
            rw [List.flatMap_cons, List.map_cons, List.map_cons, cell, dsts, tails]
            simp only [← Multiset.coe_add, ih]
            exact add_add_add_comm _ _ _ _

/-- No weight is listed from S-CHTs. -/
theorem BSlot.successors_chts (outside : b.pt = -1) : BSlot.successors E m b src = BSlot.neighbors E m b src := by
  obtain ⟨s, body⟩ := b
  cases body with
  | chts slot => rfl
  | inline pt cells => exact absurd outside (by simp [BSlot.pt])

/-- The destinations of a source, and how they are listed. -/
theorem listed_ids (w : Whole E m h) (hs : src ≠ 0) : ∃ ids : List Key,
    (↑ids : Multiset Key) = (entries E m h src).map Cell.dst ∧ ids.Nodup ∧ getNeighbors E m h src = ids.map (·, 1) ∧
      (↑(successorIds E m h src) : Multiset Key) = ↑ids + ↑(weightIds E h src) ∧
      ((∀ b, h.findSlot E src = some b → b.pt = -1) → successorIds E m h src = ids) := by
  by_cases present : ∃ b ∈ h.slots E, b.src = src
  · obtain ⟨b, hb, same⟩ := present
    have found := findSlot_eq w.grounded.framed w.homed hs hb same
    obtain ⟨rest, split⟩ := Multiset.exists_cons_of_mem hb
    have self := entries_self w.homed split
    have dsts := BSlot.coe_neighbors (E := E) (m := m) (w.grounded.framed.slot_tidy hb).1 same
    refine ⟨BSlot.neighbors E m b src, ?_, ?_, by simp only [getNeighbors, found], ?_, fun outside => ?_⟩
    · rw [dsts, ← same, self]
    · rw [← Multiset.coe_nodup, dsts]
      exact w.exact.distinct b hb
    · simp only [successorIds, weightIds, found, BSlot.coe_successors]
    · simp only [successorIds, found, BSlot.successors_chts (outside b found)]
  · have absent : ∀ b ∈ h.slots E, b.src ≠ src := fun b hb same => present ⟨b, hb, same⟩
    have missing := findSlot_none w.grounded.framed hs absent
    refine ⟨[], ?_, List.nodup_nil, by simp [getNeighbors, missing], ?_, fun _ => by simp only [successorIds, missing]⟩
    · rw [entries, itemsOf_absent absent]
      rfl
    · simp only [successorIds, weightIds, missing]
      rfl

end Weighted

end CuckooGraph
