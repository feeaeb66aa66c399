import CuckooGraph.Graph.Insert
import CuckooGraph.Graph.Query
import CuckooGraph.Weighted

/-! # Queries of the weighted build

A query looks through the S-CHTs for an answer which is not 0, so it passes over
a weight 0. With each destination stored once this makes no difference.
-/

namespace CuckooGraph

namespace Weighted

open TwoLayer

variable {E : Env} {m : Memory Cell} {c : Cell}

/-- The weights stored for a destination. -/
def weightIn (items : Multiset Cell) (dst : Key) : UInt32 :=
  ((items.filter fun c => c.dst = dst).map Cell.weight).sum

section WeightIn

variable {items : Multiset Cell} {dst : Key}

theorem weightIn_add (s t : Multiset Cell) : weightIn (s + t) dst = weightIn s dst + weightIn t dst := by
  simp [weightIn]

theorem weightIn_single (c : Cell) : weightIn {c} c.dst = c.weight := by
  simp [weightIn, Multiset.filter_singleton]

theorem weightIn_absent (absent : ∀ c ∈ items, c.dst ≠ dst) : weightIn items dst = 0 := by
  rw [weightIn, Multiset.filter_eq_nil.mpr absent]
  rfl

theorem weightIn_other (other : c.dst ≠ dst) : weightIn {c} dst = 0 := by
  apply weightIn_absent
  intro d hd
  rw [Multiset.mem_singleton.mp hd]
  exact other

theorem weightIn_mem (distinct : Distinct items) (hc : c ∈ items) : weightIn items c.dst = c.weight := by
  obtain ⟨rest, rfl⟩ := Multiset.exists_cons_of_mem hc
  have absent : ∀ d ∈ rest, d.dst ≠ c.dst := (distinct_cons.mp distinct).1
  rw [← Multiset.singleton_add, weightIn_add, weightIn_single, weightIn_absent absent, add_zero]

end WeightIn

/-- If no other cell has its destination, a cell's weight is the answer. -/
theorem weightOf_cases {cells : List Cell} (unique : ∀ d ∈ cells, d.dst = c.dst → d = c) :
    weightOf cells c.dst = c.weight ∨ (c ∉ cells ∧ weightOf cells c.dst = 0) := by
  unfold weightOf
  cases found : cells.find? fun d => d.dst == c.dst with
  | some d =>
      have same : d.dst = c.dst := by simpa using List.find?_some found
      rw [unique d (List.mem_of_find?_eq_some found) same]
      exact .inl rfl
  | none =>
      refine .inr ⟨fun hc => ?_, rfl⟩
      have unseen := List.find?_eq_none.mp found c hc
      simp at unseen

theorem Cuckoo.query_cases {t : Cuckoo Cell} (ready : t.Ready) (placed : t.Placed (chtCells E))
    (known : c.dst ≠ 0) (unique : ∀ d ∈ t.stored (chtCells E), d.dst = c.dst → d = c) :
    query E t c.dst = c.weight ∨ (c ∉ t.stored (chtCells E) ∧ query E t c.dst = 0) := by
  have bucket : ∀ flag, ∀ d ∈ (t.bucketOf (chtCells E) flag ⟨c.dst, 0⟩).cells, d.dst = c.dst → d = c := by
    intro flag d hd same
    have occupied : (chtCells E).free d = false := chtCells_free.mpr fun zero => known (same.symm.trans zero)
    exact unique d ((Table.mem_stored t).mpr ⟨Table.mem_of_bucketOf ready hd, occupied⟩) same
  have first := weightOf_cases (bucket true)
  have second := weightOf_cases (bucket false)
  have somewhere : c ∈ t.stored (chtCells E) → c ∈ (t.bucketOf (chtCells E) true ⟨c.dst, 0⟩).cells ∨
      c ∈ (t.bucketOf (chtCells E) false ⟨c.dst, 0⟩).cells := by
    intro hc
    obtain ⟨flag, here⟩ := Table.mem_bucketOf (x := ⟨c.dst, 0⟩) placed hc fun _ => rfl
    cases flag
    · exact .inr here
    · exact .inl here
  unfold query
  grind

namespace BSlot

variable {slot : Three Addr}

section Tables

variable (rooted : Rooted E m slot) (known : c.dst ≠ 0)
  (unique : ∀ d ∈ (slot.map m.heap.get).stored (chtCells E), d.dst = c.dst → d = c)

include rooted known unique

theorem query_at {a : Addr} {t : Cuckoo Cell} (member : a ∈ slot.toList)
    (live : m.heap.get a = some t) : Cuckoo.query E t c.dst = c.weight ∨
      (c ∉ t.stored (chtCells E) ∧ Cuckoo.query E t c.dst = 0) := by
  apply Cuckoo.query_cases (rooted.ready member live) (rooted.placed member live) known
  intro d hd
  exact unique d (Three.mem_stored.mpr ⟨t, mem_view member live, hd⟩)

theorem querySlots_some {aa : UInt32} (found : querySlots E m slot c.dst = some aa) : aa = c.weight := by
  obtain ⟨i, a, t, member, live, here⟩ := searchSlots_some rooted found
  dsimp only at here
  split at here
  · rename_i nonzero
    cases here
    rcases query_at rooted known unique member live with answer | ⟨-, zero⟩
    · exact answer
    · exact absurd zero nonzero
  · cases here

theorem querySlots_none (missing : querySlots E m slot c.dst = none)
    (stored : c ∈ (slot.map m.heap.get).stored (chtCells E)) : c.weight = 0 := by
  obtain ⟨i, a, t, member, live, hc, here⟩ := searchSlots_none missing stored
  dsimp only at here
  split at here
  · cases here
  · rename_i zero
    rcases query_at rooted known unique member live with answer | ⟨away, -⟩
    · rw [← answer]
      exact not_not.mp zero
    · exact absurd hc away

end Tables

theorem query_cases {b : BSlot Cell} (rooted : b.Rooted E m) (known : c.dst ≠ 0)
    (unique : ∀ d ∈ b.items E m, d.dst = c.dst → d = c) :
    query E m b ⟨b.src, c.dst⟩ = c.weight ∨ (c ∉ b.items E m ∧ query E m b ⟨b.src, c.dst⟩ = 0) := by
  obtain ⟨src, body⟩ := b
  cases body with
  | inline pt cells =>
      have unique : ∀ d ∈ filled cells, d.dst = c.dst → d = c := unique
      simp only [query, ne_eq, not_true_eq_false, if_false]
      rcases weightOf_cases fun d hd same =>
        unique d (mem_filled.mpr ⟨hd, fun zero => known (same.symm.trans zero)⟩) same with answer | ⟨away, zero⟩
      · exact .inl answer
      · exact .inr ⟨fun hc => away (mem_filled.mp hc).1, zero⟩
  | chts slot =>
      have rooted : Rooted E m slot := rooted
      have unique : ∀ d ∈ chtItems E m src slot, d.dst = c.dst → d = c := unique
      have tables : ∀ d ∈ (slot.map m.heap.get).stored (chtCells E), d.dst = c.dst → d = c :=
        fun d hd => unique d (Multiset.mem_add.mpr (.inl hd))
      simp only [query, ne_eq, not_true_eq_false, if_false]
      cases found : querySlots E m slot c.dst with
      | some aa => exact .inl (querySlots_some rooted known tables found)
      | none =>
          cases listed : m.sblacklist.find? fun d => d.src == src && d.item.dst == c.dst with
          | some d =>
              obtain ⟨s, item⟩ := d
              obtain ⟨rfl, same⟩ : s = src ∧ item.dst = c.dst := by simpa using List.find?_some listed
              have own : item ∈ m.own s := Memory.mem_own.mpr (List.mem_of_find?_eq_some listed)
              exact .inl (congrArg Cell.weight (unique item (Multiset.mem_add.mpr (.inr own)) same))
          | none =>
              have unlisted : c ∉ m.own src := fun own => by
                have unseen := List.find?_eq_none.mp listed _ (Memory.mem_own.mp own)
                simp at unseen
              by_cases stored : c ∈ (slot.map m.heap.get).stored (chtCells E)
              · exact .inl (querySlots_none rooted known tables found stored).symm
              · refine .inr ⟨fun hc => ?_, rfl⟩
                rcases Multiset.mem_add.mp hc with hc | hc
                · exact stored hc
                · exact unlisted hc

/-- A `bSlot` answers with the weight it stores. -/
theorem query_eq {b : BSlot Cell} {e : Edge} (rooted : b.Rooted E m) (same : b.src = e.src)
    (known : e.dst ≠ 0) (distinct : Distinct (b.items E m)) :
    query E m b e = weightIn (b.items E m) e.dst := by
  obtain ⟨src, dst⟩ := e
  have same : b.src = src := same
  subst same
  by_cases present : ∃ c ∈ b.items E m, c.dst = dst
  · obtain ⟨c, hc, rfl⟩ := present
    rw [weightIn_mem distinct hc]
    rcases query_cases rooted known fun d hd same =>
      Multiset.inj_on_of_nodup_map distinct d hd c hc same with answer | ⟨away, -⟩
    · exact answer
    · exact absurd hc away
  · have absent : ∀ c ∈ b.items E m, c.dst ≠ dst := fun c hc same => present ⟨c, hc, same⟩
    rw [weightIn_absent absent]
    rcases query_cases (c := ⟨dst, 0⟩) rooted known fun d hd same => absurd same (absent d hd) with
      zero | ⟨-, zero⟩
    · exact zero
    · exact zero

end BSlot

/-- The query of a graph gives the weight stored for the edge. -/
theorem query_eq {h : Holemerge Cell} (w : Whole E m h) {e : Edge} (known : e.src ≠ 0) (hd : e.dst ≠ 0) :
    query E m h e = weightIn (entries E m h e.src) e.dst := by
  by_cases stored : ∃ s ∈ h.slots E, s.src = e.src
  · obtain ⟨s, hs, same⟩ := stored
    obtain ⟨rest, split⟩ := Multiset.exists_cons_of_mem hs
    rw [query, Holemerge.ask_eq w.grounded.framed known w.homed hs same,
      BSlot.query_eq (w.grounded.rooted s hs) same hd (w.exact.distinct s hs), ← same,
      entries_self w.homed split]
  · have absent : ∀ s ∈ h.slots E, s.src ≠ e.src := fun s hs same => stored ⟨s, hs, same⟩
    rw [query, Holemerge.ask_absent w.grounded.framed known absent, entries, itemsOf_absent absent]
    rfl

end Weighted

end CuckooGraph
