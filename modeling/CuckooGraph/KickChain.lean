import CuckooGraph.Table.Conserved
import CuckooGraph.Mergehash1.Tables
import CuckooGraph.Unweighted.Query

/-! # Kick chains

What `Cuckoo::insert` and the two overloads of `bCuckoo::insert` leave of a table
without duplicates. A key of `Cuckoo` is its own name; the name of a `bSlot` is its
source.
-/

namespace CuckooGraph

open TwoLayer

variable {E : Env}

namespace KeyTable

theorem keyCells_named (s1 s2 : Int) (x y : Key) (same : (keyCells E s1 s2).same x y = true) : id x = id y := by
  simpa [keyCells] using same

end KeyTable

namespace Holemerge

variable {α : Type} [Entry α] {h : Holemerge α} {t : BCuckoo α} {m : Memory α} {e : Arc α}

theorem slotCells_named (x y : BSlot α) (same : (h.slotCells E).same x y = true) : x.src = y.src := by
  cases same

/-- Neither the occupied nor the cleared cells have a source which is not stored. -/
theorem absent_of_once (sound : t.Sound (h.slotCells E) BSlot.src) (known : e.src ≠ 0)
    (absent : e.src ∉ (t.stored (h.slotCells E)).map BSlot.src) : ∀ s ∈ t.cells, s.src ≠ e.src := by
  intro s hs
  cases vacant : s.isSlotEmpty with
  | true =>
      rw [sound.cleared s hs vacant]
      exact known.symm
  | false =>
      intro same
      apply absent
      rw [← same]
      exact Multiset.mem_map_of_mem _ ((Table.mem_stored t).mpr ⟨hs, vacant⟩)

/-- The tables of a graph are sound. -/
theorem Framed.sound (framed : h.Framed E) (tallied : h.Tallied E) (srcs : ((h.slots E).map BSlot.src).Nodup)
    (ht : t ∈ h.link.toList) : t.Sound (h.slotCells E) BSlot.src where
  ready := framed.ready ht
  placed := framed.placed t ht
  once := by
    refine Multiset.nodup_of_le (Multiset.map_le_map ?_) srcs
    exact (Three.stored_le ht).trans (Multiset.le_add_right _ _)
  counted := tallied t ht
  cleared s hs := (framed.tidy t ht s hs).eq_empty

/-- `bCuckoo::insert(Edge)` of a new source touches nothing but the table. -/
theorem insertEdge_conserves {O : SlotOps α} (ops : O.Lawful) (sound : t.Sound (h.slotCells E) BSlot.src)
    (known : e.src ≠ 0) (absent : e.src ∉ (t.stored (h.slotCells E)).map BSlot.src) :
    ∃ r : Outcome bup (BSlot α), insertEdge E O h m t e = ({ m with rands := r.draws }, r.table, r.left) ∧
      Table.Conserves (h.slotCells E) BSlot.src t (BSlot.single e) r :=
  ⟨_, insertEdge_eq ops sound.ready sound.cleared (absent_of_once sound known absent),
    sound.insert slotCells_lawful slotCells_named (by decide) kicktimes E.rand m.rands rfl absent⟩

end Holemerge

/-- A kick chain conserves the keys of a `Cuckoo`, and the `bSlot`s of a `bCuckoo`. -/
theorem kicks_conserve (E : Env) :
    (∀ (s1 s2 : Int) (t : KeyTable) (draws : Nat) (item : Key), t.Sound (keyCells E s1 s2) id → item ≠ 0 →
      item ∉ t.stored (keyCells E s1 s2) →
      Table.Conserves (keyCells E s1 s2) id t item (t.insert (keyCells E s1 s2) kicktimes E.rand draws item)) ∧
    (∀ (h : Holemerge Key) (m : Memory Key) (t : BCuckoo Key) (item : Edge),
      t.Sound (h.slotCells E) BSlot.src → item.src ≠ 0 → item.src ∉ (t.stored (h.slotCells E)).map BSlot.src →
      ∃ r : Outcome bup (BSlot Key),
        Holemerge.insertEdge E (edgeOps E) h m t item.arc = ({ m with rands := r.draws }, r.table, r.left) ∧
        Table.Conserves (h.slotCells E) BSlot.src t (BSlot.single item.arc) r) ∧
    ∀ (h : Holemerge Key) (t : BCuckoo Key) (draws : Nat) (item : BSlot Key), t.Sound (h.slotCells E) BSlot.src →
      item.isSlotEmpty = false → item.src ∉ (t.stored (h.slotCells E)).map BSlot.src →
      Table.Conserves (h.slotCells E) BSlot.src t item (t.insert (h.slotCells E) kicktimes E.rand draws item) := by
  refine ⟨fun s1 s2 t draws item sound known absent => ?_,
    fun h m t item sound known absent => Holemerge.insertEdge_conserves edgeOps_lawful sound known absent,
    fun h t draws item sound used absent => ?_⟩
  · refine sound.insert (keyCells_lawful E s1 s2) (KeyTable.keyCells_named s1 s2) (by decide) kicktimes E.rand draws
      (keyCells_free.mpr known) ?_
    rwa [Multiset.map_id]
  · exact sound.insert Holemerge.slotCells_lawful Holemerge.slotCells_named (by decide) kicktimes E.rand draws used absent

section Examples

/-- The keys 1 to 16 where all keys collide. -/
def fullKeys : KeyTable := ⟨[⟨[1, 2, 3, 4, 5, 6, 7, 8], rfl⟩], [⟨[9, 10, 11, 12, 13, 14, 15, 16], rfl⟩], 16⟩

/-- The sources 1 to 16 with one destination each. -/
def fullSlots : BCuckoo Key :=
  let single (src : Key) : BSlot Key := BSlot.single ⟨src, 1⟩
  ⟨[⟨[1, 2, 3, 4, 5, 6, 7, 8].map single, rfl⟩], [⟨[9, 10, 11, 12, 13, 14, 15, 16].map single, rfl⟩], 16⟩

/-- There is no room for a 17th key or source, and 9 is kicked out in the end. -/
theorem kicks_conserve_full :
    let H := keyCells colliding 0 221
    let h : Holemerge Key := .fresh 1 1 0 221
    let r := fullKeys.insert H kicktimes colliding.rand 0 17
    (r.left = some 9 ∧ r.table.stored H + {9} = fullKeys.stored H + {17} ∧ r.table.num = 16) ∧
    (∃ r : Outcome bup (BSlot Key), Holemerge.insertEdge colliding (edgeOps colliding) h .initial fullSlots ⟨17, 1⟩ =
        ({ Memory.initial with rands := r.draws }, r.table, r.left) ∧
      Table.Conserves (h.slotCells colliding) BSlot.src fullSlots (BSlot.single ⟨17, 1⟩) r) ∧
    Table.Conserves (h.slotCells colliding) BSlot.src fullSlots (BSlot.single ⟨17, 1⟩)
      (fullSlots.insert (h.slotCells colliding) kicktimes colliding.rand 0 (BSlot.single ⟨17, 1⟩)) := by
  obtain ⟨keys, edges, slots⟩ := kicks_conserve colliding
  refine ⟨?_, edges _ _ fullSlots ⟨17, 1⟩ (by decide +kernel) (by decide) (by decide +kernel),
    slots _ fullSlots 0 (BSlot.single ⟨17, 1⟩) (by decide +kernel) rfl (by decide +kernel)⟩
  have left : (fullKeys.insert (keyCells colliding 0 221) kicktimes colliding.rand 0 17).left = some 9 := by decide +kernel
  obtain ⟨stored, -, -, num⟩ :=
    (keys 0 221 fullKeys 0 17 (by decide +kernel) (by decide) (by decide +kernel)).kicked 9 left
  exact ⟨left, stored, num⟩

end Examples

end CuckooGraph
