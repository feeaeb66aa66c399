import CuckooGraph.Unweighted.Query

/-! # Deleting from an S-CHT

The first cell which holds the destination is cleared, in the first S-CHT which
has it.
-/

namespace CuckooGraph

open TwoLayer

variable {E : Env} {m : Memory Key} {x : Key}

/-- `c'` is `c` without the item. -/
structure Cuckoo.Lost (E : Env) (c : Cuckoo Key) (x : Key) (c' : Cuckoo Key) : Prop where
  size : Table.SameSize c c'
  placed : c'.Placed (chtCells E)
  stored : c'.stored (chtCells E) + {x} = c.stored (chtCells E)
  counted : c.Counted (chtCells E) → c'.Counted (chtCells E)

section Table

variable {c c' : Cuckoo Key} (ready : c.Ready) (placed : c.Placed (chtCells E)) (known : x ≠ 0)

include ready placed known

theorem Cuckoo.delIn_some {flag : Bool} (done : Cuckoo.delIn E c flag x = some c') :
    Cuckoo.Lost E c x c' := by
  obtain ⟨j, found, rfl⟩ := Option.map_eq_some_iff.mp done
  obtain ⟨c, same, cell⟩ := Table.at_of_findIdx ready found
  obtain rfl : c = x := by simpa using same
  obtain ⟨size, placed, stored, counted⟩ := Table.clear cell placed (chtCells_free.mpr known) (z := (0 : Key)) rfl
  exact ⟨size, placed, stored, counted⟩

omit ready placed known in
theorem Cuckoo.delIn_none {flag : Bool} (missing : Cuckoo.delIn E c flag x = none) :
    x ∉ (c.bucketOf (chtCells E) flag x).cells := by
  simp only [Cuckoo.delIn, Option.map_eq_none_iff] at missing
  intro member
  have unseen := List.findIdx?_eq_none_iff.mp missing x member
  simp at unseen

theorem Cuckoo.del_some (done : Cuckoo.del E c x = some c') : Cuckoo.Lost E c x c' := by
  unfold Cuckoo.del at done
  split at done
  · rename_i first
    cases done
    exact Cuckoo.delIn_some ready placed known first
  · exact Cuckoo.delIn_some ready placed known done

omit ready known in
theorem Cuckoo.del_none (missing : Cuckoo.del E c x = none) : x ∉ c.stored (chtCells E) := by
  intro member
  obtain ⟨flag, here⟩ := Table.mem_bucketOf placed member fun _ => rfl
  unfold Cuckoo.del at missing
  split at missing
  · cases missing
  · rename_i first
    cases flag
    · exact Cuckoo.delIn_none missing here
    · exact Cuckoo.delIn_none first here

end Table

namespace BSlot

variable {slot : Three Addr} {m' : Memory Key}

theorem delSlots_eq : delSlots E m slot x = searchSlots m slot fun _ a c =>
    (Cuckoo.del E c x).map fun c => { m with heap := m.heap.set a c } := by
  unfold delSlots searchSlots
  congr 1
  funext i
  cases m.deref (slot.get i) <;> rfl

/-- The memory after one S-CHT of the `bSlot` has lost the item. -/
theorem delSlots_some (rooted : CuckooGraph.Rooted E m slot) (known : x ≠ 0)
    (done : delSlots E m slot x = some m') :
    ∃ a c c', a ∈ slot.toList ∧ m.heap.get a = some c ∧ Cuckoo.Lost E c x c' ∧
      m' = { m with heap := m.heap.set a c' } := by
  obtain ⟨i, a, c, member, live, here⟩ := searchSlots_some rooted (delSlots_eq.symm.trans done)
  obtain ⟨c', lost, rfl⟩ := Option.map_eq_some_iff.mp here
  exact ⟨a, c, c', member, live,
    Cuckoo.del_some (rooted.ready member live) (rooted.placed member live) known lost, rfl⟩

theorem delSlots_none (rooted : CuckooGraph.Rooted E m slot)
    (missing : delSlots E m slot x = none) : x ∉ (slot.map m.heap.get).stored (chtCells E) := by
  intro stored
  obtain ⟨i, a, c, member, live, hx, here⟩ := searchSlots_none (delSlots_eq.symm.trans missing) stored
  exact Cuckoo.del_none (rooted.placed member live) (Option.map_eq_none_iff.mp here) hx

/-- Clearing a cell is a turn which takes one item away. -/
theorem delSlots_turn (src : Key) (rooted : CuckooGraph.Rooted E m slot) (known : x ≠ 0)
    (done : delSlots E m slot x = some m') :
    Turn E src m slot m' slot ∧ chtItems E m' src slot + {x} = chtItems E m src slot ∧
      (CuckooGraph.Numbered E m slot → CuckooGraph.Numbered E m' slot) := by
  obtain ⟨a, c, c', member, live, lost, rfl⟩ := delSlots_some rooted known done
  let m' : Memory Key := { m with heap := m.heap.set a c' }
  have written : Written E m slot m' c c' := rooted.write member live lost.size lost.placed rfl
  have turn : Turn E src m slot (m'.deny src []) slot :=
    written.turn member rfl rfl rfl (by simp)
  refine ⟨by simpa [Memory.deny] using turn, ?_, written.numbered lost.counted⟩
  have items : chtItems E m' src slot + {x} = chtItems E m src slot + 0 :=
    written.exchange rfl (lost.stored.trans (add_zero _).symm)
  exact items.trans (add_zero _)

end BSlot

end CuckooGraph
