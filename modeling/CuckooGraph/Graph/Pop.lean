import CuckooGraph.Graph.Insert

/-! # Taking an element off sblacklist

Without the head of `sblacklist` the graph stores one entry less. -/

namespace CuckooGraph

open TwoLayer Holemerge

variable {α : Type} [Entry α] {E : Env} {m : Memory α} {h : Holemerge α} {d : Arc α}
  {rest : List (Arc α)}

/-- The memory with another `sblacklist`. -/
def Memory.relist (m : Memory α) (list : List (Arc α)) : Memory α := { m with sblacklist := list }

section Own

omit [Entry α] in
theorem own_relist_self (list : m.sblacklist = d :: rest) :
    m.own d.src = d.item :: (m.relist rest).own d.src := by
  simp [Memory.own, Memory.relist, list]

omit [Entry α] in
theorem own_relist_ne (list : m.sblacklist = d :: rest) {s : Key} (other : s ≠ d.src) :
    (m.relist rest).own s = m.own s := by
  have passed : (d.src == s) = false := by simpa using other.symm
  simp [Memory.own, Memory.relist, list, passed]

end Own

variable (list : m.sblacklist = d :: rest)

include list

theorem Grounded.pop (g : Grounded E m h) : Grounded E (m.relist rest) h := by
  refine ⟨g.framed, g.sound, fun s hs => ?_, g.apart, fun x hx => ?_⟩
  · have same : s.Same E m (m.relist rest) := (g.rooted s hs).same fun _ _ _ live => live
    exact same.rooted
  · exact g.denied x (by rw [list]; exact List.mem_cons_of_mem d hx)

theorem Homed.pop (o : Homed E m h) : Homed E (m.relist rest) h := by
  refine ⟨o.srcs, o.tallied, fun x hx => ?_, fun s hs => ?_⟩
  · exact o.owners x (by rw [list]; exact List.mem_cons_of_mem d hx)
  · obtain ⟨src, body⟩ := s
    cases body with
    | chts slot => trivial
    | inline pt cells =>
        have heeds : m.own src = [] := o.heeds _ hs
        by_cases mine : src = d.src
        · rw [mine, own_relist_self list] at heeds
          cases heeds
        · exact (own_relist_ne list mine).trans heeds

/-- The `bSlot` of the popped entry stores one entry less, the others what they did. -/
theorem items_pop (g : Grounded E m h) (o : Homed E m h) {s : BSlot α} (hs : s ∈ h.slots E) :
    (s.src = d.src → s.items E m = s.items E (m.relist rest) + {d.item}) ∧
      (s.src ≠ d.src → s.items E (m.relist rest) = s.items E m) := by
  refine ⟨fun mine => ?_, fun other => ?_⟩
  · have heeds := o.heeds s hs
    obtain ⟨src, body⟩ := s
    obtain rfl : src = d.src := mine
    cases body with
    | inline pt cells =>
        have none : m.own d.src = [] := heeds
        rw [own_relist_self list] at none
        cases none
    | chts slot =>
        change Three.stored _ _ + _ = Three.stored _ _ + _ + _
        rw [own_relist_self list, ← Multiset.cons_coe, ← Multiset.singleton_add]
        have heap : (m.relist rest).heap = m.heap := rfl
        rw [heap]
        ac_rfl
  · have same : s.Same E m (m.relist rest) := (g.rooted s hs).same fun _ _ _ live => live
    exact same.items (own_relist_ne list other)

theorem Exact.pop (g : Grounded E m h) (o : Homed E m h) (x : Exact E m h) :
    Exact E (m.relist rest) h := by
  refine ⟨fun s hs => ?_, fun s hs => ?_⟩
  · obtain ⟨mine, other⟩ := items_pop list g o hs
    by_cases same : s.src = d.src
    · exact (x.distinct s hs).mono (mine same ▸ Multiset.le_add_right _ _)
    · rw [other same]
      exact x.distinct s hs
  · have same : s.Same E m (m.relist rest) := (g.rooted s hs).same fun _ _ _ live => live
    exact same.numbered (x.numbered s hs)

theorem entries_pop (g : Grounded E m h) (o : Homed E m h) :
    entries E m h d.src = entries E (m.relist rest) h d.src + {d.item} ∧
      ∀ src, src ≠ d.src → entries E (m.relist rest) h src = entries E m h src := by
  refine ⟨?_, fun src other => ?_⟩
  · obtain ⟨s, hs, same⟩ := o.owners d (by rw [list]; exact List.mem_cons_self)
    obtain ⟨others, split⟩ := Multiset.exists_cons_of_mem hs
    rw [← same, entries_self o split, entries_self (o.pop list) split]
    exact (items_pop list g o hs).1 same
  · refine Multiset.bind_congr fun s hs => ?_
    obtain ⟨hs, same⟩ := Multiset.mem_filter.mp hs
    exact (items_pop list g o hs).2 (same ▸ other)

end CuckooGraph
