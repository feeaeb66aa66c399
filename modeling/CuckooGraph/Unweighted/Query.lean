import CuckooGraph.Unweighted
import CuckooGraph.Slot.Insert
import CuckooGraph.Graph.Insert
import CuckooGraph.Graph.Query

/-! # Queries of the unweighted build

A query finds what is stored: in the two buckets of an S-CHT, in a `bSlot`, and
in the graph, where it stops at the first `bSlot` of the source.
-/

namespace CuckooGraph

open TwoLayer

variable {E : Env} {m : Memory Key}

theorem Cuckoo.query_iff {c : Cuckoo Key} {x : Key} (ready : c.Ready) (placed : c.Placed (chtCells E))
    (known : x ≠ 0) : Cuckoo.query E c x = true ↔ x ∈ c.stored (chtCells E) := by
  have free : (chtCells E).free x = false := chtCells_free.mpr known
  simp only [Cuckoo.query, Bool.or_eq_true, List.any_eq_true, beq_iff_eq, exists_eq_right]
  constructor
  · rintro (hx | hx)
    · exact (Table.mem_stored c).mpr ⟨Table.mem_of_bucketOf ready hx, free⟩
    · exact (Table.mem_stored c).mpr ⟨Table.mem_of_bucketOf ready hx, free⟩
  · intro hx
    obtain ⟨flag, member⟩ := Table.mem_bucketOf placed hx fun _ => rfl
    cases flag
    · exact .inr member
    · exact .inl member

namespace BSlot

variable {slot : Three Addr} {x : Key}

theorem querySlots_iff (rooted : CuckooGraph.Rooted E m slot) (known : x ≠ 0) :
    (∃ i, querySlots E m slot x = some i) ↔ x ∈ (slot.map m.heap.get).stored (chtCells E) := by
  have at_ : ∀ i a c, slot.get i = some a → m.heap.get a = some c →
      (Cuckoo.query E c x = true ↔ x ∈ c.stored (chtCells E)) := fun i a c found live =>
    Cuckoo.query_iff (rooted.ready (Three.mem_toList.mpr ⟨i, found⟩) live)
      (rooted.placed (Three.mem_toList.mpr ⟨i, found⟩) live) known
  rw [Three.mem_stored]
  constructor
  · rintro ⟨i, found⟩
    have holds := List.find?_some found
    cases target : slot.get i with
    | none => simp [target, Memory.deref] at holds
    | some a =>
        obtain ⟨c, live, -⟩ := rooted.live a (Three.mem_toList.mpr ⟨i, target⟩)
        simp only [target, Memory.deref, Option.bind_some, live, Option.map_some] at holds
        exact ⟨c, mem_view (Three.mem_toList.mpr ⟨i, target⟩) live, (at_ i a c target live).mp holds⟩
  · rintro ⟨c, hc, hx⟩
    obtain ⟨i, view⟩ := Three.mem_toList.mp hc
    rw [Three.get_map, Option.bind_eq_some_iff] at view
    obtain ⟨a, target, live⟩ := view
    have inside := Three.get_lt target
    refine Option.isSome_iff_exists.mp (List.find?_isSome.mpr ⟨i, by interval_cases i <;> simp, ?_⟩)
    simp only [target, Memory.deref, Option.bind_some, live, Option.map_some]
    exact (at_ i a c target live).mpr hx

/-- The query of a `bSlot` for its own source finds what it stores. -/
theorem query_iff {b : BSlot Key} {e : Edge} (tidy : b.Tidy) (rooted : b.Rooted E m)
    (same : b.src = e.src) (known : e.dst ≠ 0) : b.query E m e ≠ 0 ↔ e.dst ∈ b.items E m := by
  obtain ⟨src, body⟩ := b
  have same : src = e.src := same
  subst same
  cases body with
  | inline pt cells =>
      have inline : Inline e.src pt cells := tidy
      simp only [query, ne_eq, not_true_eq_false, if_false]
      change _ ↔ e.dst ∈ filled cells
      constructor
      · intro found
        refine mem_filled.mpr ⟨?_, known⟩
        by_contra absent
        simp [absent] at found
      · intro member
        have positive : pt ≠ 0 := by
          rw [← inline.count]
          exact (Multiset.card_pos_iff_exists_mem.mpr ⟨_, member⟩).ne'
        have seen : cells.any (· == e.dst) = true := by simpa using (mem_filled.mp member).1
        simpa [seen] using positive
  | chts slot =>
      have rooted : CuckooGraph.Rooted E m slot := rooted
      have found := querySlots_iff rooted known
      simp only [query, ne_eq, not_true_eq_false, if_false]
      change _ ↔ e.dst ∈ chtItems E m e.src slot
      rw [chtItems, Multiset.mem_add, ← found, Multiset.mem_coe, Memory.mem_own]
      cases hit : querySlots E m slot e.dst with
      | some i => simp; omega
      | none => simp [Edge.arc]

end BSlot

/-- A destination is stored inline, in an S-CHT or in `sblacklist`. -/
theorem edgeOps_lawful : (edgeOps E).Lawful where
  other m s e used ne := by
    obtain ⟨src, body⟩ := s
    cases body with
    | inline pt cells =>
        have positive : pt ≠ 0 := by simpa [BSlot.isSlotEmpty, BSlot.pt] using used
        simp [edgeOps, BSlot.insert, positive, ne]
    | chts slot => simp [edgeOps, BSlot.insert, ne]
  new m e := rfl

namespace BSlot

variable {b : BSlot Key} {e : Arc Key}

/-- `bSlot::insert` of a destination which is not there. -/
theorem insert_absent (tidy : b.Tidy) (rooted : b.Rooted E m)
    (owned : ∀ y ∈ m.own b.src, y ≠ 0) (same : b.src = e.src) (known : e.src ≠ 0) (hd : e.item ≠ 0)
    (absent : b.query E m ⟨e.src, e.item⟩ = 0) :
    let r := BSlot.insert E m b e
    r.2.1.src = b.src ∧ SlotTurn E m b r.1 r.2.1 ∧ (b.Heeds m → r.2.1.Heeds r.1) ∧
      (b.Heeds m → Distinct (b.items E m + {e.item}) → SlotGains E m b r.1 r.2.1 {e.item}) := by
  have unstored : e.item ∉ b.items E m := fun member =>
    (query_iff (e := ⟨e.src, e.item⟩) tidy rooted same hd).mpr member absent
  obtain ⟨src, body⟩ := b
  have same : src = e.src := same
  subst same
  cases body with
  | inline pt cells =>
      have inline : Inline e.src pt cells := tidy
      have positive : pt ≠ 0 := fun zero => known (inline.empty.mpr zero)
      have other : ∀ c ∈ cells, Entry.dst c ≠ Entry.dst e.item := by
        intro c hc equal
        have equal : c = e.item := equal
        exact unstored (mem_filled.mpr ⟨equal ▸ hc, hd⟩)
      simp only [BSlot.insert, positive, if_false, ne_eq, not_true_eq_false]
      exact insertInline_absent id inline known hd other
  | chts slot =>
      obtain ⟨turn, gains⟩ := insertChts_turn (E := E) (x := e.item) rooted owned hd
      simp only [BSlot.insert, ne_eq, not_true_eq_false, if_false, absent]
      exact ⟨trivial, .of_turn turn known, fun _ => trivial, fun _ distinct => .of_gains (gains distinct)⟩

end BSlot

theorem edgeOps_faithful : (edgeOps E).Faithful E where
  toLawful := edgeOps_lawful
  touched m s e tidy rooted owned same known hd := by
    have stored := BSlot.query_iff (e := ⟨e.src, e.item⟩) tidy rooted same hd
    by_cases absent : s.query E m ⟨e.src, e.item⟩ = 0
    · have unfolded : (edgeOps E).touch m s e =
          ((BSlot.insert E m s e).1, (BSlot.insert E m s e).2.1) := by
        simp [SlotOps.touch, edgeOps, absent]
      obtain ⟨src, turn, heeds, gains⟩ := BSlot.insert_absent tidy rooted owned same known hd absent
      rw [unfolded]
      refine ⟨src, turn, heeds, fun heeds distinct => ?_⟩
      have other : ∀ c ∈ s.items E m, Entry.dst c ≠ Entry.dst e.item := by
        intro c hc equal
        have equal : c = e.item := equal
        exact stored.mpr (equal ▸ hc) absent
      have gained := gains heeds (by
        rw [add_comm, Multiset.singleton_add, distinct_cons]
        exact ⟨other, distinct⟩)
      exact ⟨gained.numbered, .inr ⟨other, gained.items⟩⟩
    · have unfolded : (edgeOps E).touch m s e = (m, s) := by
        simp [SlotOps.touch, edgeOps, absent]
      rw [unfolded]
      refine ⟨rfl, .refl tidy rooted, id, fun _ _ => ⟨id, .inl ?_⟩⟩
      exact ⟨e.item, stored.mp absent, e.item, rfl, rfl, rfl⟩

namespace Holemerge

variable {h : Holemerge Key} {e : Edge} (g : Grounded E m h) (o : Homed E m h) (known : e.src ≠ 0)
  (hd : e.dst ≠ 0)

include g o known hd

omit known in
/-- The `bSlot` of the source answers for the graph. -/
theorem slot_query_iff {s : BSlot Key} (hs : s ∈ h.slots E) (same : s.src = e.src) :
    s.query E m e ≠ 0 ↔ e.dst ∈ entries E m h e.src := by
  obtain ⟨rest, split⟩ := Multiset.exists_cons_of_mem hs
  rw [← same, entries_self o split]
  exact BSlot.query_iff (g.framed.slot_tidy hs).1 (g.rooted s hs) same hd

/-- The query of a graph finds what is stored for the source. -/
theorem query_iff : h.query E m e ≠ 0 ↔ e.dst ∈ entries E m h e.src := by
  by_cases stored : ∃ s ∈ h.slots E, s.src = e.src
  · obtain ⟨s, hs, same⟩ := stored
    rw [query, ask_eq g.framed known o hs same]
    exact slot_query_iff g o hd hs same
  · have absent : ∀ s ∈ h.slots E, s.src ≠ e.src := fun s hs same => stored ⟨s, hs, same⟩
    rw [query, ask_absent g.framed known absent]
    constructor
    · intro wrong
      contradiction
    · intro member
      obtain ⟨s, hs, same, -⟩ := mem_entries.mp member
      exact absurd same (absent s hs)

end Holemerge

end CuckooGraph
