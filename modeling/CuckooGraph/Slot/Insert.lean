import CuckooGraph.Slot.Items

/-! # Inserting into a bSlot with inline cells

A new destination takes a free cell. When there is none, all of them move to a
new S-CHT.
-/

namespace CuckooGraph

open TwoLayer

variable {α : Type} [Entry α] {E : Env} {m : Memory α} {src : Key} {cells : List α} {x : α}

/-- The change to an S-CHT keeps what was stored inline. -/
theorem transform_turn [LawfulEntry α] (inline : Inline src (Entry.lt α) cells) (known : src ≠ 0)
    (hx : Entry.dst x ≠ 0) :
    let r := transform E m src cells x
    r.2.1.src = src ∧ SlotTurn E m ⟨src, .inline (Entry.lt α) cells⟩ r.1 r.2.1 ∧ r.2.1.Heeds r.1 ∧
      (m.own src = [] → Distinct (filled cells + {x}) →
        SlotGains E m ⟨src, .inline (Entry.lt α) cells⟩ r.1 r.2.1 {x}) := by
  let new : Cuckoo α := Table.new (chtCells E) u1 u2
  have items : ∀ y ∈ cells ++ [x], (chtCells E).free y = false := by
    intro y hy
    rw [chtCells_free]
    rcases List.mem_append.mp hy with hy | hy
    · have member : y ∈ filled cells := inline.full ▸ hy
      exact (mem_filled.mp member).2
    · exact List.mem_singleton.mp hy ▸ hx
  have settled := Table.insertAll_settled (H := chtCells E) chtCells_lawful (by norm_num) kicktimes
    E.rand items ((Table.scaled_new (by norm_num) (by norm_num)).ready : new.Ready) m.rands
  have vacant : new.stored (chtCells E) = 0 := Table.stored_new chtCells_lawful u1 u2
  have regroup : new.stored (chtCells E) + ↑(cells ++ [x]) = filled cells + {x} := by
    rw [vacant, zero_add, inline.full, ← Multiset.coe_add, Multiset.coe_singleton]
  intro r
  let bulk := Table.insertAll (chtCells E) kicktimes E.rand (cells ++ [x]) new m.rands
  let a := (m.heap.alloc bulk.table).2
  have live : r.1.heap.get a = some bulk.table := Heap.get_alloc_self
  have slot : r.2.1 = ⟨src, .chts ⟨some a, none, none⟩⟩ := rfl
  have base : bulk.table.Scaled u1 u2 := settled.size.scaled (Table.scaled_new (by norm_num) (by norm_num))
  have ownSelf : r.1.own src = m.own src ++ bulk.left := Memory.own_deny _
  rw [slot]
  refine ⟨rfl, ⟨known, .one live (settled.placed (Table.placed_new chtCells_lawful u1 u2)) base,
    fun b c before _ => Heap.get_alloc before, ?_, fun s other => Memory.own_deny_ne other _, ?_, rfl⟩,
    trivial, fun unlisted distinct => ?_⟩
  · intro b member
    have same : b = a := by simpa [BSlot.addrs, Three.toList] using member
    exact .inr (same ▸ Heap.get_fresh (b := bulk.table))
  · intro before y hy
    rw [ownSelf] at hy
    rcases List.mem_append.mp hy with hy | hy
    · exact before y hy
    · exact chtCells_free.mp (settled.left y hy).2
  · have stored : bulk.table.stored (chtCells E) + ↑bulk.left = _ :=
      settled.stored (regroup ▸ distinct.apart)
    have counted := settled.counted (regroup ▸ distinct.apart)
      (Table.counted_new chtCells_lawful u1 u2)
    refine ⟨?_, fun _ => (numbered_one live).mpr counted⟩
    change chtItems E r.1 src ⟨some a, .none, .none⟩ = filled cells + {x}
    rw [chtItems_one live, ownSelf, unlisted, List.nil_append, stored, regroup]

/-- `bSlot::insert` for `pt > 0`, the destination not being there. -/
theorem insertInline_absent [LawfulEntry α] (update : α → α) {pt : Nat} (inline : Inline src pt cells)
    (known : src ≠ 0) (hx : Entry.dst x ≠ 0) (absent : ∀ c ∈ cells, Entry.dst c ≠ Entry.dst x) :
    let r := insertInline E m src update pt cells x
    r.2.1.src = src ∧ SlotTurn E m ⟨src, .inline pt cells⟩ r.1 r.2.1 ∧
      (m.own src = [] → r.2.1.Heeds r.1) ∧
      (m.own src = [] → Distinct (filled cells + {x}) →
        SlotGains E m ⟨src, .inline pt cells⟩ r.1 r.2.1 {x}) := by
  have unseen : (cells.findIdx? fun c => Entry.dst c == Entry.dst x) = none := by
    simpa [List.findIdx?_eq_none_iff] using absent
  simp only [insertInline, unseen]
  split
  · rename_i all
    subst all
    obtain ⟨same, turn, heeds, gains⟩ := transform_turn (E := E) (m := m) inline known hx
    exact ⟨same, turn, fun _ => heeds, gains⟩
  · rename_i room
    split
    · rename_i j found
      obtain ⟨hj, free, -⟩ := List.findIdx?_eq_some_iff_getElem.mp found
      obtain ⟨after, items⟩ := inline.fill known hj (by simpa using free) hx
      refine ⟨rfl, .of_inline rfl after, fun unlisted => unlisted, fun _ _ => ?_⟩
      exact SlotGains.mk items fun _ => trivial
    · rename_i missing
      obtain ⟨c, hc, free⟩ := inline.free room
      have used := List.findIdx?_eq_none_iff.mp missing c hc
      simp [free] at used

end CuckooGraph
