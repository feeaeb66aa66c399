import CuckooGraph.WindBell.Insert

/-! # The set of edges

Without weights a matrix is a set of edges, which the query decides and an
insertion adds to.
-/

namespace CuckooGraph

open TwoLayer Linked

namespace WindBell

namespace Chandelier

variable {E : Env} {c c' : Chandelier Unit} {lists lists' : Place → List Addr} {e : Edge}

/-- Some list has a node of the edge. -/
def Holds (c : Chandelier Unit) (lists : Place → List Addr) (e : Edge) : Prop := ∃ p a, c.Found lists e p a

theorem holds_iff : c.Holds lists e ↔ ∃ a, Held lists a ∧ item c.heap a = some (e, ()) := by
  constructor
  · rintro ⟨p, a, ha, w, has⟩
    exact ⟨a, ⟨p, ha⟩, has⟩
  · rintro ⟨a, ⟨p, ha⟩, has⟩
    exact ⟨p, a, ha, (), has⟩

theorem Sound.query (s : c.Sound E lists) (low : c.Low) (e : Edge) :
    ∃ b, c.queryEdge E e = some b ∧ (b = true ↔ c.Holds lists e) := by
  obtain ⟨r, found, some, nothing⟩ := seek_spec (e := e) s.consistent s.filed low
  refine ⟨r.isSome, by rw [queryEdge, found, Option.map_some], ?_⟩
  cases r with
  | none =>
      refine ⟨fun no => absurd no (by simp), fun ⟨p, a, here⟩ => absurd here (nothing rfl p a)⟩
  | some x => exact ⟨fun _ => ⟨x.1, x.2, some x.1 x.2 rfl⟩, fun _ => rfl⟩

/-- One insertion. -/
theorem Sound.insert (s : c.Sound E lists) (low : c.Low) (e : Edge) (next prev : Option Addr) :
    ∃ lists', (c.insert E e next prev).Sound E lists' ∧
      ∀ e', (c.insert E e next prev).Holds lists' e' ↔ e' = e ∨ c.Holds lists e' := by
  obtain ⟨made, -, items⟩ := s.alloc ⟨e.src, e.dst, (), next, prev⟩
  have same : ∀ e' p a, Found { c with heap := (c.heap.alloc ⟨e.src, e.dst, (), next, prev⟩).1 } lists e' p a ↔
      c.Found lists e' p a := by
    intro e' p a
    refine and_congr_right fun ha => ?_
    rw [← items a ⟨p, ha⟩]
  obtain ⟨r, found, some, nothing⟩ := seek_spec (e := e) made.consistent made.filed low
  rw [Chandelier.insert]
  cases r with
  | none =>
      obtain ⟨lists', added⟩ := s.add low ⟨e.src, e.dst, (), next, prev⟩ fun b w ⟨p, hb⟩ has =>
        nothing rfl p b ((same e p b).mpr ⟨hb, w, has⟩)
      simp only [found]
      refine ⟨lists', added.sound, fun e' => ?_⟩
      rw [holds_iff, holds_iff]
      constructor
      · rintro ⟨a, ha, has⟩
        rcases (added.held a).mp ha with rfl | ha
        · exact .inl (Prod.mk.inj (Option.some.inj (has.symm.trans added.here))).1
        · exact .inr ⟨a, ha, (added.items a ha).symm.trans has⟩
      · rintro (rfl | ⟨a, ha, has⟩)
        · exact ⟨_, (added.held _).mpr (.inl rfl), added.here⟩
        · exact ⟨a, (added.held a).mpr (.inr ha), (added.items a ha).trans has⟩
  | some x =>
      obtain ⟨p, a⟩ := x
      simp only [found]
      refine ⟨lists, made, fun e' => ?_⟩
      simp only [Holds, same]
      refine ⟨.inr, ?_⟩
      rintro (rfl | holds)
      · exact ⟨p, a, (same e' p a).mp (some p a rfl)⟩
      · exact holds

theorem size_insert (E : Env) (c : Chandelier Unit) (e : Edge) (next prev : Option Addr) :
    (c.insert E e next prev).size = (c.len, c.size.2 + 1) := by
  have made : ∀ n : Chain Unit, size { c with heap := (c.heap.alloc n).1 } = (c.len, c.size.2 + 1) := by
    simp [size, Heap.alloc]
  simp only [Chandelier.insert]
  split
  · exact made _
  · exact made _
  · exact (size_insertNew ..).trans (made _)

end Chandelier

end WindBell

end CuckooGraph
