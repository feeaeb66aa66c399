import CuckooGraph.Graph.Insert
import CuckooGraph.Unweighted.MainDel

/-! # A deletion keeps the invariants

Each layer of invariants survives `main_del` under its own conditions, and what
is stored afterwards is what was stored before but for the deleted edge.
-/

namespace CuckooGraph

open TwoLayer Holemerge

/-- A turn says nothing about the number of draws. -/
theorem SlotTurn.draws {E : Env} {m m' : Memory Key} {s s' : BSlot Key} (turn : SlotTurn E m s m' s')
    (n : Nat) : SlotTurn E m s { m' with rands := n } s' := by
  have same : s'.Same E m' { m' with rands := n } := turn.rooted.same fun _ _ _ live => live
  exact ⟨turn.tidy, same.rooted, turn.frame, turn.fresh, turn.others, turn.owned, turn.fault⟩

namespace Holemerge

variable {E : Env} {m : Memory Key} {h : Holemerge Key} {e : Edge}

section Turn

variable {s : BSlot Key} {rest : Multiset (BSlot Key)} {r : Memory Key × Holemerge Key × Int}
  (finds : Finds E m h e s rest)

include finds

theorem Rewrites.turn (back : Rewrites E m h e s rest r) :
    SlotTurn E m s r.1 (s.del E m e).2.1 := by
  rw [back.memory]
  exact finds.dropped.turn

theorem Erases.turn (off : Erases E m h e s rest r) : SlotTurn E m s r.1 (s.del E m e).2.1 := by
  obtain ⟨n, memory⟩ := off.memory
  rw [memory]
  exact finds.dropped.turn.draws n

end Turn

section Keep

variable (g : Grounded E m h) (known : e.src ≠ 0) (hd : e.dst ≠ 0) (even : LinksEven E m h e)
  (links : LinksSafe E m h e)

include g known hd even links

theorem mainDel_grounded : Grounded E (mainDel E m h e).1 (mainDel E m h e).2.1 := by
  rcases mainDel_cases g known hd even with ⟨s, rest, finds, back | off⟩ | ⟨-, unfound⟩
  · exact g.turn finds.split (back.turn finds) back.framed back.whole.le
  · exact g.turn finds.split (off.turn finds) off.framed (off.le links)
  · rw [unfound]
    exact g

variable (o : Homed E m h) (plain : NoHusk E m h e)

include o plain

theorem mainDel_homed : Homed E (mainDel E m h e).1 (mainDel E m h e).2.1 := by
  rcases mainDel_cases g known hd even with ⟨s, rest, finds, back | off⟩ | ⟨-, unfound⟩
  · have ending := finds.dropped.ending
    have ret : (s.del E m e).2.2 ≠ -1 := back.ret.1 ▸ back.ret.2
    have heeds := ending.stays_heeds ret (o.heeds s finds.mem)
    rw [← back.memory] at heeds
    exact o.turn finds.split (back.turn finds) (ending.stays_src ret) heeds back.whole back.tallies
  · obtain ⟨whole, tallied⟩ := off.whole links plain o.tallied
    have own := finds.dropped.ending.left_own off.ret.2 (o.heeds s finds.mem)
    refine o.gone finds.split (off.turn finds) ?_ whole tallied
    obtain ⟨n, memory⟩ := off.memory
    rw [memory]
    exact own
  · rw [unfound]
    exact o

variable (x : Exact E m h) (slots : SlotsSafe E m h e)

include x slots

theorem mainDel_exact : Exact E (mainDel E m h e).1 (mainDel E m h e).2.1 := by
  rcases mainDel_cases g known hd even with ⟨s, rest, finds, back | off⟩ | ⟨-, unfound⟩
  · obtain ⟨loc, located⟩ := finds.located
    obtain ⟨numbered, items, -⟩ := finds.dropped.erase (slots loc s located) (o.heeds s finds.mem)
      (x.distinct s finds.mem) (x.numbered s finds.mem)
    have turn := back.turn finds
    rw [← back.memory] at numbered items
    refine x.turn g o finds.split turn back.whole ?_ numbered
    rw [items]
    exact (x.distinct s finds.mem).mono (Multiset.erase_le _ _)
  · exact x.others g o finds.split (off.turn finds) (off.whole links plain o.tallied).1
  · rw [unfound]
    exact x

/-- The effect of a deletion on what is stored. -/
theorem mainDel_entries :
    let r := mainDel E m h e
    entries E r.1 r.2.1 e.src = (entries E m h e.src).erase e.dst ∧
      (r.2.2 = 1 ∨ r.2.2 = -1 ↔ e.dst ∈ entries E m h e.src) ∧
      ∀ src, src ≠ e.src → entries E r.1 r.2.1 src = entries E m h src := by
  have homed := mainDel_homed g known hd even links o plain
  rcases mainDel_cases g known hd even with ⟨s, rest, finds, ending⟩ | ⟨absent, unfound⟩
  · obtain ⟨loc, located⟩ := finds.located
    obtain ⟨-, items, ret⟩ := finds.dropped.erase (slots loc s located) (o.heeds s finds.mem)
      (x.distinct s finds.mem) (x.numbered s finds.mem)
    have before := entries_self o finds.split
    rw [finds.src] at before
    intro r
    rcases ending with back | off
    · have src := finds.dropped.ending.stays_src (back.ret.1 ▸ back.ret.2)
      have self := entries_self homed back.whole
      rw [src, finds.src] at self
      refine ⟨?_, ?_, fun other ne => ?_⟩
      · rw [self, before, back.memory]
        exact items
      · rw [show r.2.2 = (s.del E m e).2.2 from back.ret.1, before, ← not_iff_not, ← ret]
        rcases finds.dropped.ending.stays_ret (back.ret.1 ▸ back.ret.2) with one | two
        · simp [one]
        · simp [two]
      · rw [← entries_other g o finds.split (back.turn finds) (finds.src.symm ▸ ne), entries, back.whole]
        exact itemsOf_cons_ne rest (by rw [src, finds.src]; exact ne.symm)
    · obtain ⟨whole, -⟩ := off.whole links plain o.tallied
      have none := finds.dropped.ending.left_items (E := E) off.ret.2
      refine ⟨?_, ?_, fun other ne => ?_⟩
      · rw [before, ← items, none, entries, whole, ← finds.src]
        exact itemsOf_absent fun t ht => o.other_src finds.split ht
      · rw [show r.2.2 = -1 from off.ret.1, before, ← not_iff_not, ← ret]
        simp [off.ret.2]
      · rw [← entries_other g o finds.split (off.turn finds) (finds.src.symm ▸ ne), entries, whole]
  · intro r
    have none : entries E m h e.src = 0 := itemsOf_absent absent
    have same : r = (m, h, 0) := unfound
    rw [same]
    exact ⟨by rw [none]; rfl, by simp [none], fun _ _ => rfl⟩

end Keep

end Holemerge

end CuckooGraph
