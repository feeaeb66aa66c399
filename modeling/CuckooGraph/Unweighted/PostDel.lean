import CuckooGraph.Graph.Pop
import CuckooGraph.Unweighted.Query
import CuckooGraph.Unweighted.Removal

/-! # The passes of post_del

A pass of the first loop takes an entry off `sblacklist` and inserts it again, a
pass of the second loop does this with a `bSlot` of `blacklist`. If no link has
room, the second one loses the `bSlot`.
-/

namespace CuckooGraph

open TwoLayer

namespace Holemerge

variable {E : Env} {m : Memory Key} {h : Holemerge Key}

section Edges

variable {d : Arc Key} {rest : List (Arc Key)} (list : m.sblacklist = d :: rest)

include list

theorem redrawEdge_eq : redrawEdge E m h =
    ((insertArc E (edgeOps E) (m.relist rest) h d).1, (insertArc E (edgeOps E) (m.relist rest) h d).2.1) := by
  simp only [redrawEdge, list, insert, Memory.relist]
  rfl

variable (g : Grounded E m h)

include g

theorem head_known : d.src ≠ 0 ∧ d.item ≠ 0 := g.denied d (by rw [list]; exact List.mem_cons_self)

/-- The entry is stored again, and nothing else changes. -/
theorem redraw_entries (o : Homed E m h) (x : Exact E m h) (src : Key) :
    entries E (redrawEdge E m h).1 (redrawEdge E m h).2 src = entries E m h src := by
  obtain ⟨known, hd⟩ := head_known list g
  have popped : Whole E (m.relist rest) h := ⟨g.pop list, o.pop list, x.pop list g o⟩
  have puts := insertArc_puts edgeOps_faithful popped known hd
  obtain ⟨items, frame⟩ := entries_pop list g o
  rw [redrawEdge_eq list]
  by_cases mine : src = d.src
  · subst mine
    rcases puts with ⟨c, stored, -, same, -⟩ | ⟨-, whole⟩
    · -- the head would be stored twice
      obtain ⟨s, hs, own⟩ := o.owners d (by rw [list]; exact List.mem_cons_self)
      obtain ⟨others, split⟩ := Multiset.exists_cons_of_mem hs
      have distinct := x.distinct s hs
      rw [← entries_self o split, own, items, add_comm, Multiset.singleton_add, distinct_cons] at distinct
      exact absurd same (distinct.1 c stored)
    · exact whole.trans items.symm
  · exact (insertArc_frame edgeOps_faithful popped known hd mine).trans (frame src mine)

end Edges

theorem redrawEdge_nil (list : m.sblacklist = []) : redrawEdge E m h = (m, h) := by
  simp only [redrawEdge, list]

section EdgePass

variable (g : Grounded E m h)

include g

theorem redrawEdge_grounded : Grounded E (redrawEdge E m h).1 (redrawEdge E m h).2 := by
  cases list : m.sblacklist with
  | nil => rwa [redrawEdge_nil list]
  | cons d rest =>
      obtain ⟨known, hd⟩ := head_known list g
      rw [redrawEdge_eq list]
      exact insertArc_grounded edgeOps_faithful (g.pop list) known hd

variable (o : Homed E m h)

include o

theorem redrawEdge_homed : Homed E (redrawEdge E m h).1 (redrawEdge E m h).2 := by
  cases list : m.sblacklist with
  | nil => rwa [redrawEdge_nil list]
  | cons d rest =>
      obtain ⟨known, hd⟩ := head_known list g
      rw [redrawEdge_eq list]
      exact insertArc_homed edgeOps_faithful (g.pop list) known hd (o.pop list)

variable (x : Exact E m h)

include x

theorem redrawEdge_exact : Exact E (redrawEdge E m h).1 (redrawEdge E m h).2 := by
  cases list : m.sblacklist with
  | nil => rwa [redrawEdge_nil list]
  | cons d rest =>
      obtain ⟨known, hd⟩ := head_known list g
      rw [redrawEdge_eq list]
      exact insertArc_exact edgeOps_faithful (g.pop list) known hd (o.pop list) (x.pop list g o)

theorem redrawEdge_entries (src : Key) :
    entries E (redrawEdge E m h).1 (redrawEdge E m h).2 src = entries E m h src := by
  cases list : m.sblacklist with
  | nil => rw [redrawEdge_nil list]
  | cons d rest => exact redraw_entries list g o x src

omit x in
theorem redrawEdge_srcs :
    ((redrawEdge E m h).2.slots E).map BSlot.src = (h.slots E).map BSlot.src := by
  cases list : m.sblacklist with
  | nil => rw [redrawEdge_nil list]
  | cons d rest =>
      obtain ⟨known, hd⟩ := head_known list g
      rw [redrawEdge_eq list]
      exact insertArc_present edgeOps_faithful (g.pop list) known hd
        (o.owners d (by rw [list]; exact List.mem_cons_self))

end EdgePass

section SlotPass

/-- A pass of the second loop finds a link for its `bSlot`. -/
def Fits (s : Memory Key × Holemerge Key) : Prop := s.2.sparseLink ≠ none

instance : DecidablePred Fits := fun s => inferInstanceAs (Decidable (¬ s.2.sparseLink = none))

theorem sparseLink_some {i : Nat} {t : BCuckoo Key} (found : h.sparseLink = some (i, t)) :
    h.link.get i = some t := by
  obtain ⟨j, -, here⟩ := List.exists_of_findSome?_eq_some found
  split at here
  · split at here
    · cases here
      assumption
    · cases here
  · cases here

/-- What a pass does to the `bSlot`s. -/
theorem redrawSlot_moves (framed : h.Framed E) :
    (∃ n, (redrawSlot E m h).1 = { m with rands := n }) ∧ (redrawSlot E m h).2.Framed E ∧
      h.Tallies E (redrawSlot E m h).2 ∧ (redrawSlot E m h).2.slots E ≤ h.slots E ∧
      (h.sparseLink ≠ none → (redrawSlot E m h).2.slots E = h.slots E) := by
  cases list : h.blacklist with
  | nil =>
      have unfolded : redrawSlot E m h = (m, h) := by simp only [redrawSlot, list]
      rw [unfolded]
      exact ⟨⟨m.rands, rfl⟩, framed, id, le_refl _, fun _ => rfl⟩
  | cons b rest =>
      let h1 : Holemerge Key := { h with blacklist := rest }
      have framed1 : h1.Framed E := ⟨framed.sizes, framed.state, framed.tower, framed.placed, framed.tidy,
        fun s hs => framed.listed s (by rw [list]; exact List.mem_cons_of_mem b hs)⟩
      have whole : h.slots E = h1.slots E + {b} := by
        change h.link.stored _ + _ = h.link.stored _ + _ + _
        rw [list, ← Multiset.cons_coe, ← Multiset.singleton_add]
        ac_rfl
      cases found : h.sparseLink with
      | none =>
          have unfolded : redrawSlot E m h = (m, h1) := by simp only [redrawSlot, list, found, h1]
          rw [unfolded]
          exact ⟨⟨m.rands, rfl⟩, framed1, id, whole ▸ Multiset.le_add_right _ _,
            fun some => absurd rfl some⟩
      | some link =>
          obtain ⟨i, t⟩ := link
          have linked : h1.link.get i = some t := sparseLink_some found
          obtain ⟨moves, tallies⟩ := settle_moves framed1 linked
            (framed.listed b (by rw [list]; exact List.mem_cons_self)) m.rands
          have slots := moves.slots
          rw [add_zero, ← whole] at slots
          simp only [redrawSlot, list, found]
          exact ⟨⟨_, rfl⟩, moves.framed, tallies, slots.le, fun _ => slots⟩

theorem redrawSlot_grounded (g : Grounded E m h) :
    Grounded E (redrawSlot E m h).1 (redrawSlot E m h).2 := by
  obtain ⟨⟨n, memory⟩, framed, -, le, -⟩ := redrawSlot_moves (m := m) g.framed
  exact g.moves memory framed le

variable (g : Grounded E m h) (fits : Fits (m, h))

include g fits

theorem redrawSlot_homed (o : Homed E m h) : Homed E (redrawSlot E m h).1 (redrawSlot E m h).2 := by
  obtain ⟨⟨n, memory⟩, -, tallies, -, same⟩ := redrawSlot_moves (m := m) g.framed
  exact o.moves memory (same fits) (tallies o.tallied)

theorem redrawSlot_exact (x : Exact E m h) :
    Exact E (redrawSlot E m h).1 (redrawSlot E m h).2 := by
  obtain ⟨⟨n, memory⟩, -, -, -, same⟩ := redrawSlot_moves (m := m) g.framed
  exact x.moves memory (same fits)

theorem redrawSlot_entries (src : Key) :
    entries E (redrawSlot E m h).1 (redrawSlot E m h).2 src = entries E m h src := by
  obtain ⟨⟨n, memory⟩, -, -, -, same⟩ := redrawSlot_moves (m := m) g.framed
  rw [entries, entries, memory, same fits]
  rfl

end SlotPass

end Holemerge

end CuckooGraph
