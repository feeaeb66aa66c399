import CuckooGraph.Unweighted.Run

/-! # The counts are exact

Unless a deletion goes wrong, `num` is the number of occupied cells of its
table, and `bSlot::del` returns -1 just when it leaves nothing behind.
-/

namespace CuckooGraph

open TwoLayer Holemerge

/-- What is said of the counts. -/
structure Counting (E : Env) (m : Memory Key) (h : Holemerge Key) : Prop where
  links : ∀ t ∈ h.link.toList, t.num = t.cells.countP fun s => !s.isSlotEmpty
  slots : ∀ s ∈ h.slots E, ∀ a ∈ s.addrs, ∃ c, m.heap.get a = some c ∧ c.num = c.cells.countP (· ≠ 0)

variable {E : Env} {s1 s2 : Int} {m : Memory Key} {h : Holemerge Key}

theorem Whole.counting (w : Whole E m h) : Counting E m h where
  links t ht := (Table.counted_iff _).mp (w.homed.tallied t ht)
  slots s hs a ha := by
    have rooted := w.grounded.rooted s hs
    have numbered := w.exact.numbered s hs
    obtain ⟨src, body⟩ := s
    cases body with
    | inline pt cells => simp [BSlot.addrs] at ha
    | chts slot =>
        obtain ⟨c, live, -⟩ := CuckooGraph.Rooted.live rooted a ha
        obtain ⟨i, here⟩ := Three.mem_toList.mp (show a ∈ slot.toList from ha)
        have there : (slot.map m.heap.get).get i = some c := by
          rw [Three.get_map, here]
          exact live
        refine ⟨c, live, ((Table.counted_iff _).mp (numbered c (Three.mem_toList.mpr ⟨i, there⟩))).trans ?_⟩
        congr 2
        funext x
        exact (decide_not ..).symm

/-- The result of `bSlot::del` tells whether the `bSlot` has become empty. -/
theorem BSlot.Ending.emptied_iff {b : BSlot Key} {e : Edge} {r : Memory Key × BSlot Key × Int}
    (ending : BSlot.Ending m b e r) (known : b.src ≠ 0) (solid : ¬ b.Husk m e) :
    r.2.2 = -1 ↔ r.2.1 = BSlot.empty := by
  have used : ∀ b' : BSlot Key, b'.src = b.src → b' ≠ BSlot.empty := by
    intro b' src same
    exact known (src.symm.trans (congrArg BSlot.src same))
  cases ending with
  | absent => simp [used b rfl]
  | @stays m' b' src heeds => simp [used b' src]
  | gone own => simp
  | husk hollow own => exact absurd hollow solid

/-- In runs which no failure interferes with, all counts are exact. -/
theorem reached_counting (reached : Reached Guard.clean E s1 s2 m h) :
    Counting E m h ∧
      (∀ t ∈ h.link.toList, t.num = 0 → ∀ s ∈ t.cells, s.isSlotEmpty = true) ∧
      ∀ e : Edge, e.src ≠ 0 → e.dst ≠ 0 → Guard.clean.del E m h e →
        ∀ loc s, h.locate E e.src = some (loc, s) →
          ((s.del E m e).2.2 = -1 ↔ (s.del E m e).2.1 = BSlot.empty) := by
  have w := reached.counts_of_clean.whole
  have counting := w.counting
  refine ⟨counting, fun t ht zero s hs => ?_, fun e hs hd clean loc s located => ?_⟩
  · have none := counting.links t ht
    rw [zero] at none
    have none := List.countP_eq_zero.mp (by exact_mod_cast none.symm) s hs
    simpa using none
  · obtain ⟨-, -, solid⟩ := clean
    obtain ⟨stands, same⟩ := locate_some w.grounded.framed located
    have known : s.src ≠ 0 := same ▸ hs
    have member := stands.mem w.grounded.framed known
    have dropped := BSlot.del_dropped (w.grounded.framed.slot_tidy member).1
      (w.grounded.rooted s member) same hs hd
    exact dropped.ending.emptied_iff known (solid loc s located)

theorem counting_poured :
    let s := played spread 1 0 221 pourCalls
    s.1.sblacklist = [⟨1, 216⟩] ∧ (s.2.locate spread 1).map (fun p => p.2.addrs.length) = some 2 ∧
      s.2.link.toList.map Table.num = [11, 22] ∧ Counting spread s.1 s.2 := by
  obtain ⟨list, two, links⟩ := pour_state
  exact ⟨list, two, links, (reached_counting pour_reached).1⟩

theorem husk_miscounted :
    let s := played colliding 3 0 221 huskCalls
    Reached Guard.all colliding 0 221 s.1 s.2 ∧
      ∃ t ∈ s.2.link.toList, t.num = 1 ∧ t.cells.countP (fun b => !b.isSlotEmpty) = 2 :=
  ⟨played_reached colliding 3 0 221 (by decide), by decide +kernel⟩

end CuckooGraph
