import CuckooGraph.Graph.Links
import CuckooGraph.Slot.Rooted
import CuckooGraph.Table.Pair
import CuckooGraph.Unweighted

/-! # One merge of three tables, or two of two

`merge` is overloaded at either level: a `bSlot` and the graph grow by a merge
of three tables, and the same could be done by merging the two smaller ones
first.
-/

namespace CuckooGraph

open TwoLayer

variable {α : Type} [Entry α]

/-- `bSlot::merge` of two S-CHTs. -/
def mergePair (E : Env) (m : Memory α) (src : Key) (a1 a2 : Addr) (c1 c2 : Cuckoo α) :
    Memory α × Addr × Cuckoo α :=
  let r := Table.merge2 (chtCells E) kicktimes E.rand c1 c2 m.rands
  let (heap, a) := m.heap.alloc r.table
  (({ m with heap := (heap.free a1).free a2, rands := r.draws }).deny src r.left, a, r.table)

/-- `merge(c0, merge(c1, c2))`. -/
def mergePairs (E : Env) (m : Memory α) (src : Key) (a0 a1 a2 : Addr) (c0 c1 c2 : Cuckoo α) :
    Memory α × Addr × Cuckoo α :=
  let (m, a, c) := mergePair E m src a1 a2 c1 c2
  mergePair E m src a0 a c0 c

namespace Holemerge

variable (E : Env) (m : Memory α) (h : Holemerge α) (c0 c1 c2 : BCuckoo α)

/-- `holemerge::merge` of three L-CHTs, as `place` does it. -/
def merge : Memory α × Holemerge α × BCuckoo α :=
  let r := Table.merge (h.slotCells E) kicktimes E.rand c0 c1 c2 m.rands
  ({ m with rands := r.draws }, { h with blacklist := h.blacklist ++ r.left }, r.table)

/-- `holemerge::merge` of two L-CHTs. -/
def mergePair : Memory α × Holemerge α × BCuckoo α :=
  let r := Table.merge2 (h.slotCells E) kicktimes E.rand c1 c2 m.rands
  ({ m with rands := r.draws }, { h with blacklist := h.blacklist ++ r.left }, r.table)

/-- `merge(c0, merge(c1, c2))`. -/
def mergePairs : Memory α × Holemerge α × BCuckoo α :=
  let (m, h, c) := mergePair E m h c1 c2
  mergePair E m h c0 c

end Holemerge

/-- An S-CHT of these bucket counts at the returned address: with what was
    pushed for its source, it holds the entries of `whole`. -/
structure SlotMerged (E : Env) (src : Key) (l1 l2 : Nat) (whole : Multiset α) (m : Memory α)
    (r : Memory α × Addr × Cuckoo α) : Prop where
  live : r.1.heap.get r.2.1 = some r.2.2
  fit : r.2.2.Fit (chtCells E) l1 l2
  pushed : ∃ left : List α, r.1.sblacklist = m.sblacklist ++ left.map (⟨src, ·⟩) ∧
    r.2.2.stored (chtCells E) + ↑left = whole

/-- An L-CHT of these bucket counts: with what was pushed onto `blacklist`, it
    holds the `bSlot`s of `whole`, whose S-CHTs are as before. -/
structure LinkMerged (E : Env) (l1 l2 : Nat) (whole : Multiset (BSlot α)) (m : Memory α) (h : Holemerge α)
    (r : Memory α × Holemerge α × BCuckoo α) : Prop where
  fit : r.2.2.Fit (h.slotCells E) l1 l2
  pushed : ∃ left : List (BSlot α), r.2.1 = { h with blacklist := h.blacklist ++ left } ∧
    r.2.2.stored (h.slotCells E) + ↑left = whole
  heap : r.1.heap = m.heap
  denied : r.1.sblacklist = m.sblacklist

section Slots

variable [LawfulEntry α] {E : Env} {m : Memory α} {a0 a1 a2 : Addr} {c0 c1 c2 : Cuckoo α} {l1 l2 : Nat}
  (src : Key) (p1 : 0 < l1) (p2 : 0 < l2)

include p1 p2

theorem mergeSlots_merged (live0 : m.heap.get a0 = some c0) (live1 : m.heap.get a1 = some c1)
    (live2 : m.heap.get a2 = some c2) (fit0 : c0.Fit (chtCells E) l1 l2)
    (fit1 : c1.Fit (chtCells E) (l1 / 2) (l2 / 2)) (fit2 : c2.Fit (chtCells E) (l1 / 2) (l2 / 2))
    (distinct : Distinct (c0.stored (chtCells E) + (c1.stored (chtCells E) + c2.stored (chtCells E)))) :
    SlotMerged E src (l1 * 2) (l2 * 2)
      (c0.stored (chtCells E) + (c1.stored (chtCells E) + c2.stored (chtCells E))) m
      (mergeSlots E m src a0 a1 a2 c0 c1 c2) := by
  obtain ⟨fit, stored⟩ := Table.merge_fit chtCells_lawful (chtCells_lawful (E := E)).zero_free (by norm_num)
    kicktimes E.rand p1 p2 fit0 fit1 fit2 distinct.apart m.rands
  refine ⟨?_, fit, _, rfl, stored⟩
  have kept := Heap.get_alloc_self (h := m.heap)
    (b := (Table.merge (chtCells E) kicktimes E.rand c0 c1 c2 m.rands).table)
  exact ((Heap.get_free_ne (Heap.alloc_ne live2).symm).trans
    (Heap.get_free_ne (Heap.alloc_ne live1).symm)).trans
    ((Heap.get_free_ne (Heap.alloc_ne live0).symm).trans kept)

theorem mergePair_merged (live1 : m.heap.get a1 = some c1) (live2 : m.heap.get a2 = some c2)
    (fit1 : c1.Fit (chtCells E) l1 l2) (fit2 : c2.Fit (chtCells E) l1 l2)
    (distinct : Distinct (c1.stored (chtCells E) + c2.stored (chtCells E))) :
    SlotMerged E src (l1 * 2) (l2 * 2) (c1.stored (chtCells E) + c2.stored (chtCells E)) m
      (mergePair E m src a1 a2 c1 c2) := by
  obtain ⟨fit, stored⟩ := Table.merge2_fit chtCells_lawful (chtCells_lawful (E := E)).zero_free (by norm_num)
    kicktimes E.rand p1 p2 fit1 fit2 distinct.apart m.rands
  refine ⟨?_, fit, _, rfl, stored⟩
  have kept := Heap.get_alloc_self (h := m.heap)
    (b := (Table.merge2 (chtCells E) kicktimes E.rand c1 c2 m.rands).table)
  exact (Heap.get_free_ne (Heap.alloc_ne live2).symm).trans
    ((Heap.get_free_ne (Heap.alloc_ne live1).symm).trans kept)

theorem mergePairs_merged (even1 : 2 ∣ l1) (even2 : 2 ∣ l2) (live0 : m.heap.get a0 = some c0)
    (live1 : m.heap.get a1 = some c1) (live2 : m.heap.get a2 = some c2) (fit0 : c0.Fit (chtCells E) l1 l2)
    (fit1 : c1.Fit (chtCells E) (l1 / 2) (l2 / 2)) (fit2 : c2.Fit (chtCells E) (l1 / 2) (l2 / 2))
    (distinct : Distinct (c0.stored (chtCells E) + (c1.stored (chtCells E) + c2.stored (chtCells E)))) :
    SlotMerged E src (l1 * 2) (l2 * 2)
      (c0.stored (chtCells E) + (c1.stored (chtCells E) + c2.stored (chtCells E))) m
      (mergePairs E m src a0 a1 a2 c0 c1 c2) := by
  have half1 : 0 < l1 / 2 := Nat.div_pos (Nat.le_of_dvd p1 even1) Nat.two_pos
  have half2 : 0 < l2 / 2 := Nat.div_pos (Nat.le_of_dvd p2 even2) Nat.two_pos
  have inner := mergePair_merged src half1 half2 live1 live2 fit1 fit2 (distinct.mono (Multiset.le_add_left _ _))
  obtain ⟨fit, stored⟩ := Table.merge2_twice_fit chtCells_lawful (chtCells_lawful (E := E)).zero_free
    (by norm_num) kicktimes E.rand p1 p2 even1 even2 fit0 fit1 fit2 distinct.apart m.rands
  let i := mergePair E m src a1 a2 c1 c2
  refine ⟨?_, fit, _, ?_, stored⟩
  · have fresh := Heap.get_alloc_self (h := i.1.heap)
      (b := (Table.merge2 (chtCells E) kicktimes E.rand c0 i.2.2 i.1.rands).table)
    -- the large table is still there, so its address is not that of the new one
    have older : a0 ≠ (i.1.heap.alloc (mergePairs E m src a0 a1 a2 c0 c1 c2).2.2).2 := by
      have before := Heap.bound live0
      have size : i.1.heap.objects.length = m.heap.objects.length + 1 := by
        simp [i, mergePair, Memory.deny, Heap.free, Heap.alloc]
      exact Nat.ne_of_lt (Nat.lt_of_lt_of_le before (by simp [Heap.alloc, size]))
    exact (Heap.get_free_ne (Heap.alloc_ne inner.live).symm).trans
      ((Heap.get_free_ne older.symm).trans fresh)
  · rw [List.map_append, ← List.append_assoc]
    rfl

end Slots

section Links

variable {E : Env} {c0 c1 c2 : BCuckoo α} {l1 l2 : Nat} (m : Memory α) (h : Holemerge α) (p1 : 0 < l1) (p2 : 0 < l2)
  (fit0 : c0.Fit (h.slotCells E) l1 l2) (fit1 : c1.Fit (h.slotCells E) (l1 / 2) (l2 / 2))
  (fit2 : c2.Fit (h.slotCells E) (l1 / 2) (l2 / 2))

include p1 p2 fit0 fit1 fit2

theorem Holemerge.merge_merged :
    LinkMerged E (l1 * 2) (l2 * 2)
      (c0.stored (h.slotCells E) + (c1.stored (h.slotCells E) + c2.stored (h.slotCells E))) m h
      (h.merge E m c0 c1 c2) := by
  obtain ⟨fit, stored⟩ := Table.merge_fit slotCells_lawful rfl (by norm_num) kicktimes E.rand p1 p2 fit0 fit1
    fit2 (slotCells_apart _) m.rands
  exact ⟨fit, ⟨_, rfl, stored⟩, rfl, rfl⟩

theorem Holemerge.mergePairs_merged (even1 : 2 ∣ l1) (even2 : 2 ∣ l2) :
    LinkMerged E (l1 * 2) (l2 * 2)
      (c0.stored (h.slotCells E) + (c1.stored (h.slotCells E) + c2.stored (h.slotCells E))) m h
      (h.mergePairs E m c0 c1 c2) := by
  obtain ⟨fit, stored⟩ := Table.merge2_twice_fit slotCells_lawful rfl (by norm_num) kicktimes E.rand p1 p2 even1
    even2 fit0 fit1 fit2 (slotCells_apart _) m.rands
  refine ⟨fit, ⟨_, ?_, stored⟩, rfl, rfl⟩
  rw [← List.append_assoc]
  rfl

end Links

/-- Merging three tables and merging twice two of them both keep every entry. -/
theorem merge_agrees [LawfulEntry α] (E : Env) {l : Nat} (pos : 0 < l) (four : 4 ∣ l) :
    (∀ (m : Memory α) (src : Key) (a0 a1 a2 : Addr) (c0 c1 c2 : Cuckoo α),
      m.heap.get a0 = some c0 → m.heap.get a1 = some c1 → m.heap.get a2 = some c2 →
      c0.Fit (chtCells E) l (l / 2) → c1.Fit (chtCells E) (l / 2) (l / 4) → c2.Fit (chtCells E) (l / 2) (l / 4) →
      Distinct (c0.stored (chtCells E) + (c1.stored (chtCells E) + c2.stored (chtCells E))) →
      let whole := c0.stored (chtCells E) + (c1.stored (chtCells E) + c2.stored (chtCells E))
      SlotMerged E src (2 * l) l whole m (mergeSlots E m src a0 a1 a2 c0 c1 c2) ∧
        SlotMerged E src (2 * l) l whole m (mergePairs E m src a0 a1 a2 c0 c1 c2)) ∧
    ∀ (m : Memory α) (h : Holemerge α) (c0 c1 c2 : BCuckoo α),
      c0.Fit (h.slotCells E) l (l / 2) → c1.Fit (h.slotCells E) (l / 2) (l / 4) →
      c2.Fit (h.slotCells E) (l / 2) (l / 4) →
      let whole := c0.stored (h.slotCells E) + (c1.stored (h.slotCells E) + c2.stored (h.slotCells E))
      LinkMerged E (2 * l) l whole m h (h.merge E m c0 c1 c2) ∧
        LinkMerged E (2 * l) l whole m h (h.mergePairs E m c0 c1 c2) := by
  obtain ⟨k, rfl⟩ := four
  have p1 : 0 < 4 * k := pos
  have p2 : 0 < 4 * k / 2 := by omega
  have quarter : 4 * k / 4 = 4 * k / 2 / 2 := by omega
  have even1 : 2 ∣ 4 * k := by omega
  have even2 : 2 ∣ 4 * k / 2 := by omega
  have double1 : 2 * (4 * k) = 4 * k * 2 := by omega
  have double2 : 4 * k = 4 * k / 2 * 2 := by omega
  rw [quarter, double1]
  constructor
  · intro m src a0 a1 a2 c0 c1 c2 live0 live1 live2 fit0 fit1 fit2 distinct whole
    have once := mergeSlots_merged src p1 p2 live0 live1 live2 fit0 fit1 fit2 distinct
    have twice := mergePairs_merged src p1 p2 even1 even2 live0 live1 live2 fit0 fit1 fit2 distinct
    rw [← double2] at once twice
    exact ⟨once, twice⟩
  · intro m h c0 c1 c2 fit0 fit1 fit2 whole
    have once := h.merge_merged m p1 p2 fit0 fit1 fit2
    have twice := h.mergePairs_merged m p1 p2 fit0 fit1 fit2 even1 even2
    rw [← double2] at once twice
    exact ⟨once, twice⟩

theorem merge_agrees_four :
    let H : Cells Key := chtCells colliding
    let c := fun (l1 l2 : Nat) (xs : List Key) =>
      (Table.insertAll H kicktimes colliding.rand xs (Table.new H l1 l2) 0 : Bulk bup Key).table
    let m : Memory Key := ⟨⟨[some (c 4 2 [5, 6]), some (c 2 1 [7]), some (c 2 1 [8])]⟩, [], 0, false⟩
    let whole := (c 4 2 [5, 6]).stored H + ((c 2 1 [7]).stored H + (c 2 1 [8]).stored H)
    SlotMerged colliding 3 8 4 whole m (mergeSlots colliding m 3 0 1 2 (c 4 2 [5, 6]) (c 2 1 [7]) (c 2 1 [8])) ∧
      SlotMerged colliding 3 8 4 whole m (mergePairs colliding m 3 0 1 2 (c 4 2 [5, 6]) (c 2 1 [7]) (c 2 1 [8])) := by
  intro H c m whole
  have fit : ∀ l1 l2 (xs : List Key), 0 < l1 → 0 < l2 → (∀ x ∈ xs, x ≠ 0) → xs.Nodup → (c l1 l2 xs).Fit H l1 l2 := by
    intro l1 l2 xs p1 p2 known nodup
    refine Table.fit_insertAll chtCells_lawful (by norm_num) kicktimes colliding.rand p1 p2
      (fun x hx => chtCells_free.mpr (known x hx)) (Distinct.apart ?_) (chtCells_agree _) 0
    exact Multiset.coe_nodup.mpr ((List.map_id xs).symm ▸ nodup)
  have stored : whole = ↑([5, 6, 7, 8] : List Key) := by decide +kernel
  refine (merge_agrees colliding (l := 4) (by decide) (by decide)).1 m 3 0 1 2 _ _ _ rfl rfl rfl
    (fit 4 2 _ (by decide) (by decide) (by decide) (by decide))
    (fit 2 1 _ (by decide) (by decide) (by decide) (by decide))
    (fit 2 1 _ (by decide) (by decide) (by decide) (by decide)) ?_
  change (whole.map Entry.dst).Nodup
  rw [stored]
  decide

end CuckooGraph
