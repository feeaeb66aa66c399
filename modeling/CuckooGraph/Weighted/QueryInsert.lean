import CuckooGraph.Weighted.Query

/-! # query_insert

An insertion first looks for the destination and adds to the weight it finds: the
weight of the insertion in an S-CHT, 1 in an inline cell and in `sblacklist`.
-/

namespace CuckooGraph

namespace Weighted

open TwoLayer

variable {E : Env} {m : Memory Cell}

/-- `t'` is `t` with `k` added to the weight of an item. -/
structure Cuckoo.Added (E : Env) (t : Cuckoo Cell) (c : Cell) (k : UInt32) (t' : Cuckoo Cell) : Prop where
  member : c ∈ t.stored (chtCells E)
  size : Table.SameSize t t'
  placed : t'.Placed (chtCells E)
  stored : t'.stored (chtCells E) + {c} = t.stored (chtCells E) + {c.add k}
  counted : t.Counted (chtCells E) → t'.Counted (chtCells E)

section Table

variable {t t' : Cuckoo Cell} {item : Cell} (ready : t.Ready) (placed : t.Placed (chtCells E))
  (known : item.dst ≠ 0)

include ready placed known

theorem Cuckoo.queryInsertIn_some {flag : Bool} (done : queryInsertIn E t flag item = some t') :
    ∃ c : Cell, c.dst = item.dst ∧ Added E t c item.weight t' := by
  simp only [queryInsertIn, Option.map_eq_some_iff] at done
  obtain ⟨j, found, rfl⟩ := done
  obtain ⟨hj, here, -⟩ := List.findIdx?_eq_some_iff_getElem.mp found
  let c := (t.bucketOf (chtCells E) flag item).cells[j]
  have same : c.dst = item.dst := by simpa using here
  have used : Entry.dst c ≠ 0 := fun zero => known (same.symm.trans zero)
  have get : (t.bucketOf (chtCells E) flag item).cells.getD j item = c := by
    simp [List.getD_eq_getElem?_getD, hj, c]
  have cell : t.At flag (Layer.pos ((chtCells E).hash flag) (t.side flag) item) j c :=
    Table.at_of_bucketOf ready (List.getElem?_eq_some_iff.mpr ⟨hj, rfl⟩)
  have occupied : (chtCells E).free (c.add item.weight) = false := chtCells_free.mpr used
  have stored := Table.stored_overwrite (H := chtCells E) (x := c.add item.weight) cell
  rw [Cells.occupied_singleton (chtCells_free.mpr used), Cells.occupied_singleton occupied] at stored
  rw [get]
  refine ⟨c, same, (Table.mem_stored t).mpr ⟨cell.mem, chtCells_free.mpr used⟩, Table.overwrite_size,
    Table.placed_overwrite cell placed fun _ => ?_, stored, fun counted => ?_⟩
  · exact cell.pos placed (chtCells_free.mpr used)
  · have card := congrArg Multiset.card stored
    simp only [Multiset.card_add, Multiset.card_singleton, Nat.add_right_cancel_iff] at card
    rw [Table.Counted] at counted ⊢
    rw [Table.overwrite_num, counted, card]

omit ready placed known in
theorem Cuckoo.queryInsertIn_none {flag : Bool} (missing : queryInsertIn E t flag item = none) :
    ∀ c ∈ (t.bucketOf (chtCells E) flag item).cells, c.dst ≠ item.dst := by
  simp only [queryInsertIn, Option.map_eq_none_iff] at missing
  intro c hc same
  have unseen := List.findIdx?_eq_none_iff.mp missing c hc
  simp [same] at unseen

theorem Cuckoo.queryInsert_some (done : queryInsert E t item = some t') :
    ∃ c : Cell, c.dst = item.dst ∧ Added E t c item.weight t' := by
  unfold queryInsert at done
  split at done
  · rename_i first
    cases done
    exact queryInsertIn_some ready placed known first
  · exact queryInsertIn_some ready placed known done

omit ready known in
theorem Cuckoo.queryInsert_none (missing : queryInsert E t item = none) :
    ∀ c ∈ t.stored (chtCells E), c.dst ≠ item.dst := by
  intro c hc same
  have agree : ∀ flag, (chtCells E).hash flag item = (chtCells E).hash flag c := by
    intro flag
    simp only [chtCells]
    rw [show Entry.dst c = Entry.dst item from same]
  obtain ⟨flag, here⟩ := Table.mem_bucketOf placed hc agree
  unfold queryInsert at missing
  split at missing
  · cases missing
  · rename_i first
    cases flag
    · exact queryInsertIn_none missing c here same
    · exact queryInsertIn_none first c here same

end Table

namespace BSlot

section Slots

variable {slot : Three Addr} {item : Cell} (rooted : Rooted E m slot)

include rooted

/-- An S-CHT which has the destination adds the weight to it. -/
theorem queryInsertSlots_some (src : Key) (known : item.dst ≠ 0) {r : Memory Cell × Nat}
    (done : queryInsertSlots E m slot item = some r) :
    ∃ c : Cell, c.dst = item.dst ∧ c ∈ (slot.map m.heap.get).stored (chtCells E) ∧
      Turn E src m slot r.1 slot ∧
      chtItems E r.1 src slot + {c} = chtItems E m src slot + {c.add item.weight} ∧
      (Numbered E m slot → Numbered E r.1 slot) := by
  obtain ⟨i, a, t, member, live, here⟩ := searchSlots_some rooted done
  obtain ⟨t', found, rfl⟩ := Option.map_eq_some_iff.mp here
  obtain ⟨c, same, added⟩ :=
    Cuckoo.queryInsert_some (rooted.ready member live) (rooted.placed member live) known found
  let m' : Memory Cell := { m with heap := m.heap.set a t' }
  have written : Written E m slot m' t t' := rooted.write member live added.size added.placed rfl
  have turn : Turn E src m slot (m'.deny src []) slot := written.turn member rfl rfl rfl (by simp)
  refine ⟨c, same, Three.mem_stored.mpr ⟨t, mem_view member live, added.member⟩, ?_,
    written.exchange rfl added.stored, written.numbered added.counted⟩
  simpa [Memory.deny] using turn

theorem queryInsertSlots_none (missing : queryInsertSlots E m slot item = none) :
    ∀ c ∈ (slot.map m.heap.get).stored (chtCells E), c.dst ≠ item.dst := by
  intro c hc
  obtain ⟨i, a, t, member, live, hc, here⟩ := searchSlots_none missing hc
  exact Cuckoo.queryInsert_none (rooted.placed member live) (Option.map_eq_none_iff.mp here) c hc

end Slots

end BSlot

end Weighted

end CuckooGraph
