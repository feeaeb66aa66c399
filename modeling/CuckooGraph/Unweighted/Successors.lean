import CuckooGraph.Graph.Successors
import CuckooGraph.Unweighted.Exactness
import Mathlib.Data.Set.Card
import Mathlib.Order.Interval.Finset.Basic

/-! # The successors of a source

With insertions only, `query_successor` and `GetNeighbors` list what a query
finds, each destination once.
-/

namespace CuckooGraph

open TwoLayer Holemerge

/-- The ids which `bSlot::query_successor` and `bSlot::GetNeighbors` pass. -/
def BSlot.successors (E : Env) (m : Memory Key) (b : BSlot Key) (src : Key) : List Key :=
  match b.body with
  | .chts slot => scanChts E m src slot
  | .inline pt cells => if pt = 0 then [] else cells.filter (· ≠ 0)

namespace Holemerge

variable (E : Env) (m : Memory Key) (h : Holemerge Key) (src : Key)

def querySuccessor (buf : Buffer) (U : Nat) : Buffer × Nat :=
  match h.findSlot E src with
  | some s => buf.write U (s.successors E m src)
  | none => (buf, 0)

/-- `Neighbor` is an id with a weight. -/
def getNeighbors : List (Key × Nat) :=
  match h.findSlot E src with
  | some s => (s.successors E m src).map (·, 1)
  | none => []

end Holemerge

/-- An `int`, but not the 0 of a free cell. -/
def IsId (v : Key) : Prop := v ≠ 0 ∧ -2147483648 ≤ v ∧ v < 2147483648

theorem ids_few {A : Set Key} (ids : ∀ v ∈ A, IsId v) : A.Finite ∧ A.ncard < 2 ^ 32 := by
  have within : A ⊆ ↑((Finset.Ico (-2147483648 : Int) 2147483648).erase 0) := by
    intro v hv
    simpa [IsId, and_comm] using ids v hv
  have count : ((Finset.Ico (-2147483648 : Int) 2147483648).erase 0).card = 2 ^ 32 - 1 := by
    rw [Finset.card_erase_of_mem (by simp), Int.card_Ico]
    rfl
  have few := Set.ncard_le_ncard within (Finset.finite_toSet _)
  rw [Set.ncard_coe_finset, count] at few
  exact ⟨(Finset.finite_toSet _).subset within, few.trans_lt (by decide)⟩

variable {E : Env} {m : Memory Key} {h : Holemerge Key} {src : Key}

theorem BSlot.coe_successors {b : BSlot Key} (tidy : b.Tidy) (same : b.src = src) :
    (↑(b.successors E m src) : Multiset Key) = b.items E m := by
  obtain ⟨s, body⟩ := b
  subst same
  cases body with
  | chts slot => exact (coe_scanChts E m s slot).trans (Multiset.map_id' _)
  | inline pt cells =>
      have inline : Inline s pt cells := tidy
      simp only [successors]
      split
      · rename_i zero
        exact (Multiset.card_eq_zero.mp (inline.count.trans zero)).symm
      · rfl

/-- What is listed for a source is what is stored for it. -/
theorem Whole.querySuccessor (w : Whole E m h) (known : src ≠ 0) (buf : Buffer) (U : Nat) :
    ∃ ids : List Key, (↑ids : Multiset Key) = entries E m h src ∧
      h.querySuccessor E m src buf U = buf.write U ids ∧ h.getNeighbors E m src = ids.map (·, 1) := by
  by_cases present : ∃ s ∈ h.slots E, s.src = src
  · obtain ⟨s, hs, same⟩ := present
    obtain ⟨rest, split⟩ := Multiset.exists_cons_of_mem hs
    have found := findSlot_eq w.grounded.framed w.homed known hs same
    refine ⟨s.successors E m src, ?_, by simp only [Holemerge.querySuccessor, found],
      by simp only [getNeighbors, found]⟩
    rw [BSlot.coe_successors (w.grounded.framed.slot_tidy hs).1 same, ← same, entries_self w.homed split]
  · have absent : ∀ s ∈ h.slots E, s.src ≠ src := fun s hs same => present ⟨s, hs, same⟩
    have missing := findSlot_none w.grounded.framed known absent
    refine ⟨[], (itemsOf_absent absent).symm, ?_, by simp only [getNeighbors, missing, List.map_nil]⟩
    simp [Holemerge.querySuccessor, missing, Buffer.write]

/-- The ids listed do not depend on the array. No free cell lists any. -/
theorem Whole.successors (w : Whole E m h) (src : Key) : ∃ ids : List Key, (↑ids : Multiset Key) = entries E m h src ∧
    (∀ buf U, h.querySuccessor E m src buf U = buf.write U ids) ∧ h.getNeighbors E m src = ids.map (·, 1) := by
  by_cases known : src = 0
  · subst known
    refine ⟨[], (itemsOf_absent fun s hs => w.grounded.framed.slot_src hs).symm, fun buf U => ?_, ?_⟩
    all_goals
      simp only [Holemerge.querySuccessor, getNeighbors]
      cases found : h.findSlot E 0 with
      | none => simp [Buffer.write]
      | some s =>
          obtain ⟨tidy, zero⟩ := Holemerge.findSlot_tidy w.grounded.framed found
          rw [tidy.eq_empty (tidy.src_eq_zero.mp zero)]
          simp [BSlot.successors, BSlot.empty]
  · obtain ⟨ids, stored, -, neighbors⟩ := w.querySuccessor known (fun _ => 0) 0
    refine ⟨ids, stored, fun buf U => ?_, neighbors⟩
    obtain ⟨ids', -, written, neighbors'⟩ := w.querySuccessor known buf U
    have same : ids' = ids := by
      have ids_eq := congrArg (List.map Prod.fst) (neighbors'.symm.trans neighbors)
      simpa [List.map_map, Function.comp_def] using ids_eq
    rw [written, same]

/-- The entries of a fresh graph after insertions. -/
theorem entries_insertEdges {es : List Edge} {l1 l2 : Nat} {s1 s2 : Int} (sizes : 2 ≤ l2 ∧ l2 ≤ l1)
    (known : ∀ e ∈ es, e.src ≠ 0 ∧ e.dst ≠ 0) (x d : Key) :
    d ∈ entries E (insertEdges E (Memory.initial, Holemerge.fresh l1 l2 s1 s2) es).1
      (insertEdges E (Memory.initial, Holemerge.fresh l1 l2 s1 s2) es).2 x ↔ ⟨x, d⟩ ∈ es := by
  have start : Whole E Memory.initial (Holemerge.fresh l1 l2 s1 s2 : Holemerge Key) := fresh_whole sizes
  obtain ⟨-, stored⟩ := insertEdges_whole start known
  rw [stored ⟨x, d⟩, entries, fresh_slots]
  simp [itemsOf]

/-- What `GetNeighbors` lists after insertions. -/
theorem getNeighbors_insertEdges (E : Env) {l1 l2 : Nat} (sizes : 2 ≤ l2 ∧ l2 ≤ l1) (s1 s2 : Int) {es : List Edge}
    (known : ∀ e ∈ es, e.src ≠ 0 ∧ e.dst ≠ 0) (src : Key) :
    let s := insertEdges E (Memory.initial, fresh l1 l2 s1 s2) es
    let ids := (s.2.getNeighbors E s.1 src).map Prod.fst
    s.2.getNeighbors E s.1 src = ids.map (·, 1) ∧ ids.Nodup ∧ ∀ d, d ∈ ids ↔ ⟨src, d⟩ ∈ es := by
  intro s ids
  obtain ⟨whole, -⟩ := insertEdges_fresh E sizes s1 s2 known
  obtain ⟨listed, stored, -, neighbors⟩ := whole.successors src
  have all : ids = listed := by
    simp only [ids, s, neighbors, List.map_map, Function.comp_def, List.map_id']
  have nodup := whole.nodup src
  rw [← stored, Multiset.coe_nodup] at nodup
  rw [all]
  refine ⟨neighbors, nodup, fun d => ?_⟩
  rw [← Multiset.mem_coe, stored]
  exact entries_insertEdges sizes known src d

/-- After any insertions a query finds what is listed: each destination once,
    from `U` on, and nothing else is written. -/
theorem querySuccessor_exact (E : Env) {l1 l2 : Nat} (sizes : 2 ≤ l2 ∧ l2 ≤ l1) (s1 s2 : Int)
    (es : List Edge) (known : ∀ e ∈ es, e.src ≠ 0 ∧ e.dst ≠ 0) (src : Key) (hs : src ≠ 0)
    (buf : Buffer) (U : Nat) :
    let s := insertEdges E (Memory.initial, fresh l1 l2 s1 s2) es
    let r := s.2.querySuccessor E s.1 src buf U
    let ids := r.1.slice U r.2
    ids.Nodup ∧ (∀ d, d ∈ ids ↔ d ≠ 0 ∧ s.2.query E s.1 ⟨src, d⟩ ≠ 0) ∧
      (∀ i, i < U ∨ U + r.2 ≤ i → r.1 i = buf i) ∧ s.2.getNeighbors E s.1 src = ids.map (·, 1) := by
  intro s r ids
  obtain ⟨whole, exactly⟩ := insertEdges_fresh E sizes s1 s2 known
  obtain ⟨listed, stored, written, neighbors⟩ := whole.querySuccessor hs buf U
  obtain ⟨count, slice, kept⟩ := Buffer.write_spec buf U listed
  have same : r = buf.write U listed := written
  have all : ids = listed := by
    simp only [ids, same, count, slice]
  have nodup := whole.nodup src
  rw [← stored, Multiset.coe_nodup] at nodup
  rw [all]
  refine ⟨nodup, fun d => ?_, fun i outside => ?_, neighbors⟩
  · rw [← Multiset.mem_coe, stored]
    by_cases zero : d = 0
    · simp only [zero, ne_eq, not_true_eq_false, false_and, iff_false]
      exact fun hd => entries_known whole.grounded hd rfl
    · rw [whole.query_iff (e := ⟨src, d⟩) hs zero]
      simp [zero]
  · rw [same] at outside ⊢
    rw [count] at outside
    exact kept i outside

theorem querySuccessor_exact_repeated :
    let s := insertEdges colliding (Memory.initial, fresh bl1 bl2 0 221) [⟨1, 2⟩, ⟨1, 3⟩, ⟨1, 2⟩]
    (s.2.getNeighbors colliding s.1 1).map Prod.fst = [2, 3] ∧
      ((s.2.querySuccessor colliding s.1 1 (fun _ => 0) 5).1.slice 5
        (s.2.querySuccessor colliding s.1 1 (fun _ => 0) 5).2).Nodup :=
  ⟨by decide, (querySuccessor_exact colliding default_sizes 0 221 [⟨1, 2⟩, ⟨1, 3⟩, ⟨1, 2⟩] (by decide) 1
    (by decide) (fun _ => 0) 5).1⟩

end CuckooGraph
