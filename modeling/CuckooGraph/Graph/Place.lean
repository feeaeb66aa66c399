import CuckooGraph.Graph.Links

/-! # Writing a bSlot back, and placing a new source

A new source goes to a table with room, to a new table which takes the whole of
`blacklist` first, or to a new table beside the merge of three. In each case
the `bSlot`s of the graph are those of before and the new one.
-/

namespace CuckooGraph

open TwoLayer

variable {α : Type} [Entry α]

/-- A `bSlot` with another source is left alone, an empty one takes the edge. -/
structure SlotOps.Lawful (O : SlotOps α) : Prop where
  other : ∀ m s e, s.isSlotEmpty = false → s.src ≠ e.src → O.insert m s e = (m, s, 0)
  new : ∀ m e, O.insert m BSlot.empty e = (m, BSlot.single e, 1)

namespace Holemerge

variable {E : Env} {h h' h'' : Holemerge α}

/-- `h'` has the `bSlot`s of `h` but for those which went out and came in. -/
structure Moves (E : Env) (h h' : Holemerge α) (out inn : Multiset (BSlot α)) : Prop where
  framed : h'.Framed E
  slots : h'.slots E + out = h.slots E + inn

theorem Moves.exchange {s s' : BSlot α} {rest : Multiset (BSlot α)} (moves : h.Moves E h' {s} {s'})
    (split : h.slots E = s ::ₘ rest) : h'.slots E = s' ::ₘ rest := by
  have slots := moves.slots
  rw [split, ← Multiset.singleton_add] at slots
  rw [← Multiset.singleton_add]
  apply add_right_cancel (b := {s})
  rw [slots]
  ac_rfl

/-- The links of `h'` count right if those of `h` do. -/
def Tallies (E : Env) (h h' : Holemerge α) : Prop := h.Tallied E → h'.Tallied E

section Write

variable {i : Nat} {t t' : BCuckoo α} {list : List (BSlot α)}

/-- Exchanging one link for another one of its size. -/
theorem Framed.setLink (framed : h.Framed E) (linked : h.link.get i = some t)
    (size : Table.SameSize t t') (placed : t'.Placed (h.slotCells E)) (tidy : ∀ s ∈ t'.cells, s.Tidy)
    (listed : ∀ s ∈ list, s.Tidy ∧ s.isSlotEmpty = false) :
    ({ h with link := h.link.set i (some t'), blacklist := list } : Holemerge α).Framed E where
  sizes := framed.sizes
  state := framed.state.trans (by rw [Three.length_set linked])
  tower := framed.tower.set linked size
  placed d hd := by
    rcases Three.mem_set hd with hd | rfl
    · exact framed.placed d hd
    · exact placed
  tidy d hd := by
    rcases Three.mem_set hd with hd | rfl
    · exact framed.tidy d hd
    · exact tidy
  listed := listed

theorem slots_setLink (linked : h.link.get i = some t) (t' : BCuckoo α) (list : List (BSlot α)) :
    ({ h with link := h.link.set i (some t'), blacklist := list } : Holemerge α).slots E +
        (t.stored (h.slotCells E) + ↑h.blacklist) =
      h.slots E + (t'.stored (h.slotCells E) + ↑list) := by
  have links : (h.link.set i (some t')).stored (h.slotCells E) + t.stored (h.slotCells E) =
      h.link.stored (h.slotCells E) + t'.stored (h.slotCells E) := Three.stored_set linked
  calc _ = ((h.link.set i (some t')).stored (h.slotCells E) + t.stored (h.slotCells E)) +
          (↑list + ↑h.blacklist) := by
        change ((h.link.set i (some t')).stored (h.slotCells E) + ↑list) + _ = _
        ac_rfl
    _ = _ := by
        rw [links, slots]
        ac_rfl

theorem tallied_setLink (linked : h.link.get i = some t)
    (counted : t.Counted (h.slotCells E) → t'.Counted (h.slotCells E)) (list : List (BSlot α)) :
    h.Tallies E { h with link := h.link.set i (some t'), blacklist := list } := by
  intro tallied d hd
  rcases Three.mem_set hd with hd | rfl
  · exact tallied d hd
  · exact counted (tallied t (Three.mem_toList.mpr ⟨i, linked⟩))

end Write

section Back

variable {s s' : BSlot α}

/-- Writing back a `bSlot` which is not empty. -/
theorem setAt_moves (framed : h.Framed E) {loc : Loc} (stands : h.Stands E loc s)
    (known : s.src ≠ 0) (tidy : s'.Tidy) (same : s'.src = s.src) :
    h.Moves E (h.setAt E loc s') {s} {s'} ∧ h.Tallies E (h.setAt E loc s') := by
  have used : ∀ b : BSlot α, b.Tidy → b.src = s.src → b.isSlotEmpty = false := by
    intro b tidy same
    by_contra vacant
    exact known (same ▸ tidy.src_eq_zero.mpr (by simpa using vacant))
  cases loc with
  | link i flag ha j =>
      obtain ⟨t, linked, cell, position⟩ := stands
      have ht := Three.mem_toList.mpr ⟨i, linked⟩
      let t' := t.overwrite (h.slotCells E) flag ha j s'
      have unfolded : h.setAt E (.link i flag ha j) s' =
          { h with link := h.link.set i (some t'), blacklist := h.blacklist } := by
        simp only [setAt, linked, t']
      have stored := Table.stored_overwrite (H := h.slotCells E) (x := s') cell
      rw [Cells.occupied_singleton (H := h.slotCells E) (used s (framed.tidy t ht s cell.mem) rfl),
        Cells.occupied_singleton (H := h.slotCells E) (used s' tidy same)] at stored
      have exchange := slots_setLink (E := E) linked t' h.blacklist
      rw [unfolded]
      refine ⟨⟨framed.setLink linked Table.overwrite_size
        (Table.placed_overwrite cell (framed.placed t ht) fun _ => ?_) ?_ framed.listed, ?_⟩,
        tallied_setLink linked (fun counted => ?_) h.blacklist⟩
      · rw [position, ← same]
        rfl
      · intro b hb
        rcases Table.mem_overwrite cell hb with hb | rfl
        · exact framed.tidy t ht b hb
        · exact tidy
      · apply add_right_cancel (b := t.stored (h.slotCells E) + ↑h.blacklist)
        rw [add_right_comm, exchange]
        calc _ = h.slots E + (t'.stored (h.slotCells E) + {s}) + ↑h.blacklist := by ac_rfl
          _ = _ := by
            rw [stored]
            ac_rfl
      · have card := congrArg Multiset.card stored
        simp only [Multiset.card_add, Multiset.card_singleton, Nat.add_right_cancel_iff] at card
        simpa only [Table.Counted, t', Table.overwrite_num, card] using counted
  | denied j =>
      have here : h.blacklist[j]? = some s := stands
      obtain ⟨hj, at_⟩ := List.getElem?_eq_some_iff.mp here
      refine ⟨⟨⟨framed.sizes, framed.state, framed.tower, framed.placed, framed.tidy, ?_⟩, ?_⟩, id⟩
      · intro b hb
        rcases List.mem_or_eq_of_mem_set hb with hb | rfl
        · exact framed.listed b hb
        · exact ⟨tidy, used b tidy same⟩
      · have exchange := coe_set h.blacklist hj s'
        rw [at_] at exchange
        change (h.link.stored (h.slotCells E) + ↑(h.blacklist.set j s')) + {s} = _
        rw [add_assoc, exchange, slots, add_assoc]

end Back

section Place

theorem findIdx?_congr {β : Type} {p q : β → Bool} {l : List β} (same : ∀ x ∈ l, p x = q x) :
    l.findIdx? p = l.findIdx? q := by
  induction l with
  | nil => rfl
  | cons x xs ih =>
      rw [List.findIdx?_cons, List.findIdx?_cons, same x List.mem_cons_self,
        ih fun y hy => same y (List.mem_cons_of_mem x hy)]

variable {O : SlotOps α} (ops : O.Lawful) {m : Memory α} {e : Arc α}

include ops

/-- In a bucket without the source, its `bSlot` goes to the first empty cell. -/
theorem insertBucket_eq {b : Bucket bup (BSlot α)}
    (cleared : ∀ s ∈ b.cells, s.isSlotEmpty = true → s = BSlot.empty) (absent : ∀ s ∈ b.cells, s.src ≠ e.src) :
    insertBucket O m b e =
      match b.put (h.slotCells E) (BSlot.single e) with
      | .stored b' => (m, b', 1)
      | _ => (m, b, 0) := by
  have unseen : (b.cells.findIdx? fun s => s.src == e.src) = none := by
    simpa [List.findIdx?_eq_none_iff] using absent
  have takes : ∀ s ∈ b.cells, ((O.insert m s e).2.2 != 0) = (h.slotCells E).free s := by
    intro s hs
    change _ = s.isSlotEmpty
    cases vacant : s.isSlotEmpty with
    | true =>
        rw [cleared s hs vacant, ops.new]
        rfl
    | false =>
        rw [ops.other m s e vacant (absent s hs)]
        rfl
  have never : b.cells.any ((h.slotCells E).same (BSlot.single e)) = false := by
    simp [slotCells]
  simp only [insertBucket, unseen, findIdx?_congr takes, Bucket.put, never, Bool.false_eq_true,
    if_false]
  cases found : b.cells.findIdx? (h.slotCells E).free with
  | none => rfl
  | some i =>
      obtain ⟨hi, vacant, -⟩ := List.findIdx?_eq_some_iff_getElem.mp found
      have zero : b.cells.getD i BSlot.empty = BSlot.empty := by
        rw [List.getD_eq_getElem?_getD, List.getElem?_eq_getElem hi, Option.getD_some]
        exact cleared _ (List.getElem_mem hi) vacant
      simp only [zero, ops.new]

/-- `bCuckoo::insert` of a new source is the insertion of its `bSlot`. -/
theorem insertEdge_eq {t : BCuckoo α} (ready : t.Ready)
    (cleared : ∀ s ∈ t.cells, s.isSlotEmpty = true → s = BSlot.empty) (absent : ∀ s ∈ t.cells, s.src ≠ e.src) :
    insertEdge E O h m t e =
      let r := t.insert (h.slotCells E) kicktimes E.rand m.rands (BSlot.single e)
      ({ m with rands := r.draws }, r.table, r.left) := by
  have inBucket : ∀ flag, ∀ s ∈ (t.bucketOf (h.slotCells E) flag (BSlot.single e)).cells, s ∈ t.cells :=
    fun flag s hs => Table.mem_of_bucketOf ready hs
  have bucket : ∀ flag, insertBucket O m (t.bucketOf (h.slotCells E) flag (BSlot.single e)) e =
      match (t.bucketOf (h.slotCells E) flag (BSlot.single e)).put (h.slotCells E) (BSlot.single e) with
      | .stored b' => (m, b', 1)
      | _ => (m, t.bucketOf (h.slotCells E) flag (BSlot.single e), 0) := fun flag =>
    insertBucket_eq ops (fun s hs => cleared s (inBucket flag s hs)) fun s hs => absent s (inBucket flag s hs)
  have home : ∀ flag, h.home E t flag e.src =
      (Layer.pos ((h.slotCells E).hash flag) (t.side flag) (BSlot.single e),
        t.bucketOf (h.slotCells E) flag (BSlot.single e)) := home_eq (BSlot.single e) rfl
  have layer : ∀ flag, Layer.put (h.slotCells E) ((h.slotCells E).hash flag) (t.side flag)
      (BSlot.single e) = ((t.bucketOf (h.slotCells E) flag (BSlot.single e)).put (h.slotCells E)
        (BSlot.single e)).map
          ((t.side flag).set (Layer.pos ((h.slotCells E).hash flag) (t.side flag) (BSlot.single e))) :=
    fun flag => rfl
  have never : ∀ flag, (t.bucketOf (h.slotCells E) flag (BSlot.single e)).put (h.slotCells E)
      (BSlot.single e) ≠ .present := by
    intro flag seen
    obtain ⟨c, -, same⟩ := Bucket.put_present seen
    cases same
  simp only [insertEdge, home, bucket, Table.insert]
  rw [show t.layer1 = t.side true from rfl, show t.layer2 = t.side false from rfl, layer, layer]
  cases first : (t.bucketOf (h.slotCells E) true (BSlot.single e)).put (h.slotCells E) (BSlot.single e) with
  | stored b => rfl
  | present => exact absurd first (never true)
  | full =>
      cases second : (t.bucketOf (h.slotCells E) false (BSlot.single e)).put (h.slotCells E)
          (BSlot.single e) with
      | stored b => rfl
      | present => exact absurd second (never false)
      | full =>
          simp only [Put.map, ops.new]
          rfl

end Place

/-- The outcome of placing the `bSlot` of a new source. -/
structure Housed (E : Env) (m : Memory α) (h : Holemerge α) (e : Arc α)
    (r : Memory α × Holemerge α × Bool) : Prop where
  memory : ∃ n, r.1 = { m with rands := n }
  moves : h.Moves E r.2.1 0 {BSlot.single e}
  tallies : h.Tallies E r.2.1

theorem Housed.slots {m : Memory α} {e : Arc α} {r : Memory α × Holemerge α × Bool}
    (housed : Housed E m h e r) : r.2.1.slots E = BSlot.single e ::ₘ h.slots E := by
  have slots := housed.moves.slots
  rwa [add_zero, add_comm, Multiset.singleton_add] at slots

section House

variable {O : SlotOps α} {m : Memory α} {e : Arc α} {t : BCuckoo α}

/-- Neither the occupied nor the empty cells of a link have a new source. -/
theorem Framed.absent_cells (framed : h.Framed E) (known : e.src ≠ 0)
    (absent : ∀ s ∈ h.slots E, s.src ≠ e.src) (ht : t ∈ h.link.toList) : ∀ s ∈ t.cells, s.src ≠ e.src := by
  intro s hs
  cases vacant : s.isSlotEmpty with
  | true =>
      rw [(framed.tidy t ht s hs).src_eq_zero.mpr vacant]
      exact known.symm
  | false => exact absent s (mem_slots.mpr (.inl ⟨t, ht, hs, vacant⟩))

variable [LawfulEntry α]

theorem single_tidy (known : e.src ≠ 0) (hd : Entry.dst e.item ≠ 0) :
    (BSlot.single e).Tidy ∧ (BSlot.single e).isSlotEmpty = false :=
  ⟨(BSlot.single_inline known hd).1, rfl⟩

omit [LawfulEntry α] in
/-- Inserting a `bSlot` into a link, and pushing what is kicked out. -/
theorem settle_moves (framed : h.Framed E) {i : Nat} (linked : h.link.get i = some t) {s : BSlot α}
    (known : s.Tidy ∧ s.isSlotEmpty = false) (draws : Nat) :
    let r := t.insert (h.slotCells E) kicktimes E.rand draws s
    let h' := { h with link := h.link.set i (some r.table), blacklist := h.blacklist ++ r.left.toList }
    h.Moves E h' 0 {s} ∧ h.Tallies E h' := by
  have ht := Three.mem_toList.mpr ⟨i, linked⟩
  have settled := Table.insert_settled (H := h.slotCells E) slotCells_lawful (by norm_num)
    (framed.ready ht) kicktimes E.rand draws known.2
  intro r
  change Table.Settled _ _ _ r at settled
  have stored := settled.stored (slotCells_apart _)
  have fresh : ∀ b, b ∈ t.cells ∨ b = s → b.Tidy := by
    rintro b (hb | rfl)
    · exact framed.tidy t ht b hb
    · exact known.1
  refine ⟨⟨framed.setLink linked settled.size (settled.placed (framed.placed t ht))
    (fun b hb => fresh b (settled.cells b hb)) ?_, ?_⟩,
    tallied_setLink linked (settled.counted (slotCells_apart _)) _⟩
  · intro b hb
    rcases List.mem_append.mp hb with hb | hb
    · exact framed.listed b hb
    · obtain ⟨origin, used⟩ := settled.left b (Option.mem_toList.mp hb)
      exact ⟨fresh b origin, used⟩
  · have exchange := slots_setLink (E := E) linked r.table (h.blacklist ++ r.left.toList)
    rw [add_zero]
    apply add_right_cancel (b := t.stored (h.slotCells E) + ↑h.blacklist)
    rw [exchange, ← Multiset.coe_add]
    calc _ = h.slots E + (r.table.stored (h.slotCells E) + ↑r.left.toList) + ↑h.blacklist := by ac_rfl
      _ = _ := by
        rw [stored]
        ac_rfl

theorem insertInto_housed (ops : O.Lawful) (framed : h.Framed E) (known : e.src ≠ 0)
    (hd : Entry.dst e.item ≠ 0) (absent : ∀ s ∈ h.slots E, s.src ≠ e.src) {i : Nat}
    (linked : h.link.get i = some t) : Housed E m h e (insertInto E O m h i t e) := by
  have ht := Three.mem_toList.mpr ⟨i, linked⟩
  have unfolded := insertEdge_eq (E := E) (h := h) (m := m) ops (framed.ready ht)
    (fun s hs => (framed.tidy t ht s hs).eq_empty) (framed.absent_cells known absent ht)
  obtain ⟨moves, tallies⟩ := settle_moves framed linked (single_tidy known hd) m.rands
  simp only [insertInto, unfolded]
  exact ⟨⟨_, rfl⟩, moves, tallies⟩

/-- A new table takes `blacklist` and the new `bSlot` in one series. -/
theorem openLink_eq (ops : O.Lawful) (framed : h.Framed E) (known : e.src ≠ 0)
    (absent : ∀ s ∈ h.slots E, s.src ≠ e.src) (i l1 l2 : Nat) (p1 : 0 < l1) (p2 : 0 < l2) :
    openLink E O m h i l1 l2 e =
      let r := Table.insertAll (h.slotCells E) kicktimes E.rand (h.blacklist ++ [BSlot.single e])
        (Table.new (h.slotCells E) l1 l2) m.rands
      ({ m with rands := r.draws },
        { h with state := i, link := h.link.set i (some r.table), blacklist := r.left }, true) := by
  let new : BCuckoo α := Table.new (h.slotCells E) l1 l2
  have ready : new.Ready := Table.new_ready _ p1 p2
  let before := Table.insertAll (h.slotCells E) kicktimes E.rand h.blacklist new m.rands
  have drained : Table.AllSettled (h.slotCells E) new h.blacklist before :=
    Table.insertAll_settled slotCells_lawful (by norm_num) kicktimes E.rand
      (fun s hs => (framed.listed s hs).2) ready m.rands
  have origin : ∀ s ∈ before.table.cells, s.Tidy ∧ s.src ≠ e.src := by
    intro s hs
    rcases drained.cells s hs with hs | hs
    · rw [Table.mem_new l1 l2 hs]
      exact ⟨BSlot.tidy_empty, known.symm⟩
    · exact ⟨(framed.listed s hs).1, absent s (mem_slots.mpr (.inr hs))⟩
  have unfolded := insertEdge_eq (E := E) (h := h) ops
    (m := { m with rands := before.draws })
    (drained.size.ready ready) (fun s hs => (origin s hs).1.eq_empty) fun s hs => (origin s hs).2
  rw [Table.insertAll_append_singleton]
  exact congrArg (fun x : Memory α × BCuckoo α × Option (BSlot α) => (x.1,
    ({ h with state := i, link := h.link.set i (some x.2.1),
              blacklist := before.left ++ x.2.2.toList } :
      Holemerge α), true)) unfolded

/-- What the new table of `openLink` holds, and what is left over. -/
structure Drained (E : Env) (h : Holemerge α) (e : Arc α) (l1 l2 : Nat) (r : Bulk bup (BSlot α)) :
    Prop where
  size : Table.SameSize (Table.new (h.slotCells E) l1 l2) r.table
  placed : r.table.Placed (h.slotCells E)
  tidy : ∀ s ∈ r.table.cells, s.Tidy
  listed : ∀ s ∈ r.left, s.Tidy ∧ s.isSlotEmpty = false
  stored : r.table.stored (h.slotCells E) + ↑r.left = ↑h.blacklist + {BSlot.single e}
  counted : r.table.Counted (h.slotCells E)

theorem insertAll_drained (framed : h.Framed E) (known : e.src ≠ 0) (hd : Entry.dst e.item ≠ 0)
    (l1 l2 : Nat) (p1 : 0 < l1) (p2 : 0 < l2) (draws : Nat) :
    Drained E h e l1 l2 (Table.insertAll (h.slotCells E) kicktimes E.rand
      (h.blacklist ++ [BSlot.single e]) (Table.new (h.slotCells E) l1 l2) draws) := by
  let new : BCuckoo α := Table.new (h.slotCells E) l1 l2
  have ready : new.Ready := Table.new_ready _ p1 p2
  have items : ∀ s ∈ h.blacklist ++ [BSlot.single e], s.Tidy ∧ s.isSlotEmpty = false :=
    framed.listed_append fun s hs => List.mem_singleton.mp hs ▸ single_tidy known hd
  have settled := Table.insertAll_settled (H := h.slotCells E) slotCells_lawful (by norm_num)
    kicktimes E.rand (fun s hs => (items s hs).2) ready draws
  have origin : ∀ s, s ∈ new.cells ∨ s ∈ h.blacklist ++ [BSlot.single e] → s.Tidy := by
    rintro s (hs | hs)
    · rw [Table.mem_new l1 l2 hs]
      exact BSlot.tidy_empty
    · exact (items s hs).1
  refine ⟨settled.size, settled.placed (Table.placed_new slotCells_lawful l1 l2),
    fun s hs => origin s (settled.cells s hs),
    fun s hs => ⟨origin s (settled.left s hs).1, (settled.left s hs).2⟩, ?_,
    settled.counted (slotCells_apart _) (Table.counted_new slotCells_lawful l1 l2)⟩
  have stored := settled.stored (slotCells_apart _)
  rwa [Table.stored_new slotCells_lawful, zero_add, ← Multiset.coe_add, Multiset.coe_singleton] at stored

section Open

variable (ops : O.Lawful) (framed : h.Framed E) (known : e.src ≠ 0) (hd : Entry.dst e.item ≠ 0)
  (absent : ∀ s ∈ h.slots E, s.src ≠ e.src)

include ops framed known hd absent

theorem place_first (vacant : h.link = ⟨none, none, none⟩) :
    Housed E m h e (insertInto E O m { h with state := 0 } 0
      (Table.new (h.slotCells E) h.ll1 h.ll2) e) := by
  let new : BCuckoo α := Table.new (h.slotCells E) h.ll1 h.ll2
  let h0 : Holemerge α := { h with state := 0, link := ⟨some new, none, none⟩ }
  have blank : ∀ s ∈ new.cells, s = BSlot.empty := fun s hs => Table.mem_new _ _ hs
  have stored : new.stored (h.slotCells E) = 0 := Table.stored_new slotCells_lawful _ _
  have base : new.Scaled h.ll1 h.ll2 := Table.scaled_new (framed.sizes.1.trans framed.sizes.2) framed.sizes.1
  have framed0 : h0.Framed E := ⟨framed.sizes, by simp [h0, Three.toList], .one base,
    Three.forall_one.mpr (Table.placed_new slotCells_lawful _ _),
    Three.forall_one.mpr fun s hs => blank s hs ▸ BSlot.tidy_empty, framed.listed⟩
  have slots0 : h0.slots E = h.slots E := by
    rw [slots, slots, vacant]
    change Three.stored (h.slotCells E) ⟨some new, none, none⟩ + _ = _
    rw [Three.stored_one, stored, Three.stored_none]
  have same : insertInto E O m { h with state := 0 } 0 new e = insertInto E O m h0 0 new e := by
    simp only [insertInto, h0, vacant, Three.set]
    rfl
  rw [same]
  have housed := insertInto_housed (m := m) ops framed0 known hd (slots0 ▸ absent) (i := 0) rfl
  refine ⟨housed.memory, ⟨housed.moves.framed, by rw [← slots0]; exact housed.moves.slots⟩,
    fun _ => housed.tallies ?_⟩
  exact Three.forall_one.mpr (Table.counted_new slotCells_lawful _ _)

theorem openLink_second {t0 : BCuckoo α} (one : h.link = ⟨some t0, none, none⟩) :
    Housed E m h e (openLink E O m h 1 (t0.len1 / 2) (t0.len2 / 2) e) := by
  have tower := framed.tower
  have placed := framed.placed
  have tidy := framed.tidy
  rw [one] at tower placed tidy
  rw [Three.forall_one] at placed tidy
  cases tower with
  | one base =>
      have half := Table.halfOf_new (H := h.slotCells E) t0
      obtain ⟨p1, p2⟩ := Table.ready_new (half.ready base)
      rw [openLink_eq ops framed known absent 1 _ _ p1 p2]
      have drained := insertAll_drained framed known hd _ _ p1 p2 m.rands
      generalize Table.insertAll (h.slotCells E) kicktimes E.rand (h.blacklist ++ [BSlot.single e])
        (Table.new (h.slotCells E) (t0.len1 / 2) (t0.len2 / 2)) m.rands = r at drained
      have links : h.link.set 1 (some r.table) = ⟨some t0, some r.table, none⟩ := by rw [one]; rfl
      simp only [links]
      refine ⟨⟨r.draws, rfl⟩, ⟨⟨framed.sizes, by simp [Three.toList],
        .two base ((Table.SameSize.refl t0).halfOf drained.size half),
        Three.forall_two.mpr ⟨placed, drained.placed⟩, Three.forall_two.mpr ⟨tidy, drained.tidy⟩,
        drained.listed⟩, ?_⟩, fun tallied => ?_⟩
      · calc Three.stored (h.slotCells E) ⟨some t0, some r.table, none⟩ + ↑r.left + 0
            = t0.stored (h.slotCells E) + (r.table.stored (h.slotCells E) + ↑r.left) := by
              rw [Three.stored_two, add_zero, add_assoc]
          _ = h.slots E + {BSlot.single e} := by
              rw [drained.stored, slots, one, Three.stored_one, add_assoc]
      · rw [Tallied, one, Three.forall_one] at tallied
        exact Three.forall_two.mpr ⟨tallied, drained.counted⟩

theorem openLink_third {t0 t1 : BCuckoo α} (two : h.link = ⟨some t0, some t1, none⟩) :
    Housed E m h e (openLink E O m h 2 t1.len1 t1.len2 e) := by
  have tower := framed.tower
  have placed := framed.placed
  have tidy := framed.tidy
  rw [two] at tower placed tidy
  rw [Three.forall_two] at placed tidy
  cases tower with
  | two base half1 =>
      have half := Table.halfOf_like (H := h.slotCells E) half1
      have ready := half1.ready base
      have p1 : 0 < t1.len1 := ready true
      have p2 : 0 < t1.len2 := ready false
      rw [openLink_eq ops framed known absent 2 _ _ p1 p2]
      have drained := insertAll_drained framed known hd _ _ p1 p2 m.rands
      generalize Table.insertAll (h.slotCells E) kicktimes E.rand (h.blacklist ++ [BSlot.single e])
        (Table.new (h.slotCells E) t1.len1 t1.len2) m.rands = r at drained
      have links : h.link.set 2 (some r.table) = ⟨some t0, some t1, some r.table⟩ := by rw [two]; rfl
      simp only [links]
      refine ⟨⟨r.draws, rfl⟩, ⟨⟨framed.sizes, by simp [Three.toList],
        .three base half1 ((Table.SameSize.refl t0).halfOf drained.size half),
        Three.forall_three.mpr ⟨placed.1, placed.2, drained.placed⟩,
        Three.forall_three.mpr ⟨tidy.1, tidy.2, drained.tidy⟩, drained.listed⟩, ?_⟩, fun tallied => ?_⟩
      · calc Three.stored (h.slotCells E) ⟨some t0, some t1, some r.table⟩ + ↑r.left + 0
            = t0.stored (h.slotCells E) + t1.stored (h.slotCells E) +
                (r.table.stored (h.slotCells E) + ↑r.left) := by
              rw [Three.stored_three]
              ac_rfl
          _ = h.slots E + {BSlot.single e} := by
              rw [drained.stored, slots, two, Three.stored_two]
              ac_rfl
      · rw [Tallied, two, Three.forall_two] at tallied
        exact Three.forall_three.mpr ⟨tallied.1, tallied.2, drained.counted⟩

end Open

/-- The merge of three links, the new table being the only one. -/
theorem merge_moves (framed : h.Framed E) {t0 t1 t2 : BCuckoo α}
    (three : h.link = ⟨some t0, some t1, some t2⟩) (draws : Nat) :
    let r := Table.merge (h.slotCells E) kicktimes E.rand t0 t1 t2 draws
    let h' := { h with state := 0, link := ⟨some r.table, none, none⟩, blacklist := h.blacklist ++ r.left }
    h.Moves E h' 0 0 ∧ h.Tallies E h' := by
  have tower := framed.tower
  have placed := framed.placed
  have tidy := framed.tidy
  rw [three] at tower placed tidy
  rw [Three.forall_three] at placed tidy
  cases tower with
  | three base half1 half2 =>
      have settled := Table.merge_settled (H := h.slotCells E) slotCells_lawful (by norm_num) kicktimes
        E.rand (base.ready) (slotCells_agree tidy.1)
        (slotCells_agree tidy.2.1) (slotCells_agree tidy.2.2) half1.side half2.side draws
      intro r h'
      have origin : ∀ s, s ∈ t0.cells ∨ s ∈ t1.cells ∨ s ∈ t2.cells ∨ s = (h.slotCells E).zero →
          s.Tidy := by
        rintro s (hs | hs | hs | rfl)
        · exact tidy.1 s hs
        · exact tidy.2.1 s hs
        · exact tidy.2.2 s hs
        · exact BSlot.tidy_empty
      refine ⟨⟨⟨framed.sizes, by simp [h', Three.toList], .one (Table.scaled_of_double base settled.size),
        Three.forall_one.mpr (settled.placed placed.1),
        Three.forall_one.mpr fun s hs => origin s (settled.cells s hs),
        framed.listed_append fun s hs => ⟨origin s (settled.left s hs).1, (settled.left s hs).2⟩⟩, ?_⟩,
        fun tallied => ?_⟩
      · have stored := settled.stored (slotCells_apart _)
        calc Three.stored (h.slotCells E) ⟨some r.table, none, none⟩ + ↑(h.blacklist ++ r.left) + 0
            = (r.table.stored (h.slotCells E) + ↑r.left) + ↑h.blacklist := by
              rw [Three.stored_one, ← Multiset.coe_add, add_zero]
              ac_rfl
          _ = h.slots E + 0 := by
              rw [stored, slots, three, Three.stored_three, add_zero]
      · rw [Tallied, three, Three.forall_three] at tallied
        exact Three.forall_one.mpr (settled.counted (slotCells_apart _) tallied.1)

omit [Entry α] [LawfulEntry α] in
theorem roomyLink_some {i : Nat} (found : h.roomyLink = some (i, t)) : h.link.get i = some t := by
  obtain ⟨j, -, here⟩ := List.exists_of_findSome?_eq_some found
  cases target : h.link.get j with
  | none => simp [target] at here
  | some t' =>
      simp only [target, Option.ite_none_right_eq_some, Option.some.injEq, Prod.mk.injEq] at here
      obtain ⟨-, rfl, rfl⟩ := here
      exact target

/-- `holemerge::insert` of a new source, in any state: no `bSlot` is lost, and
    no assertion fails. -/
theorem place_housed (ops : O.Lawful) (framed : h.Framed E) (known : e.src ≠ 0)
    (hd : Entry.dst e.item ≠ 0) (absent : ∀ s ∈ h.slots E, s.src ≠ e.src) :
    Housed E m h e (place E O m h e) := by
  rcases framed.cases with ⟨shape, state⟩ | ⟨t0, shape, state⟩ | ⟨t0, t1, shape, state⟩ |
    ⟨t0, t1, t2, shape, state⟩
  · simpa only [place, state, if_true] using place_first ops framed known hd absent shape
  · have linked : h.link.get 0 = some t0 := by rw [shape]; rfl
    simp only [place, state, shape]
    norm_num only [if_false, if_true]
    split
    · exact openLink_second ops framed known hd absent shape
    · exact insertInto_housed ops framed known hd absent linked
  · simp only [place, state, shape]
    norm_num
    cases found : h.roomyLink with
    | some it => exact insertInto_housed ops framed known hd absent (roomyLink_some found)
    | none => exact openLink_third ops framed known hd absent shape
  · simp only [place, state, shape]
    norm_num
    cases found : h.roomyLink with
    | some it => exact insertInto_housed ops framed known hd absent (roomyLink_some found)
    | none =>
        obtain ⟨merged, tallies⟩ := merge_moves framed shape m.rands
        have slots := merged.slots
        rw [add_zero, add_zero] at slots
        let r := Table.merge (h.slotCells E) kicktimes E.rand t0 t1 t2 m.rands
        have housed := openLink_second (m := { m with rands := r.draws }) ops merged.framed known hd
          (slots ▸ absent) rfl
        obtain ⟨n, memory⟩ := housed.memory
        exact ⟨⟨n, memory⟩, ⟨housed.moves.framed, slots ▸ housed.moves.slots⟩,
          fun tallied => housed.tallies (tallies tallied)⟩

end House

end Holemerge

end CuckooGraph
