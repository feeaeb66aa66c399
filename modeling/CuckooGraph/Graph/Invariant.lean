import CuckooGraph.Graph.Place

/-! # Invariants of a graph

They come in three layers, each of which needs less of the past than the next
one. `Grounded` is about pointers and shape, `Homed` about the homes of the
sources and of denylisted entries, `Exact` about what is stored. A step changes
one `bSlot`, so each layer is kept by a statement about that `bSlot` alone.
-/

namespace CuckooGraph

open TwoLayer Holemerge

variable {α : Type} [Entry α] {E : Env} {m m' : Memory α} {h h' : Holemerge α}

structure Grounded (E : Env) (m : Memory α) (h : Holemerge α) : Prop where
  framed : h.Framed E
  sound : m.fault = false
  rooted : ∀ s ∈ h.slots E, s.Rooted E m
  apart : ((h.slots E).bind fun s => (s.addrs : Multiset Addr)).Nodup
  denied : ∀ d ∈ m.sblacklist, d.src ≠ 0 ∧ Entry.dst d.item ≠ 0

structure Homed (E : Env) (m : Memory α) (h : Holemerge α) : Prop where
  srcs : ((h.slots E).map BSlot.src).Nodup
  tallied : h.Tallied E
  owners : ∀ d ∈ m.sblacklist, ∃ s ∈ h.slots E, s.src = d.src
  heeds : ∀ s ∈ h.slots E, s.Heeds m

structure Exact (E : Env) (m : Memory α) (h : Holemerge α) : Prop where
  distinct : ∀ s ∈ h.slots E, Distinct (s.items E m)
  numbered : ∀ s ∈ h.slots E, s.Numbered E m

/-- The three layers of invariants. -/
structure Whole (E : Env) (m : Memory α) (h : Holemerge α) : Prop where
  grounded : Grounded E m h
  homed : Homed E m h
  exact : Exact E m h

section Fresh

variable {l1 l2 : Nat} {s1 s2 : Int}

theorem default_sizes : 2 ≤ bl2 ∧ bl2 ≤ bl1 := by decide

theorem fresh_slots : (fresh l1 l2 s1 s2 : Holemerge α).slots E = 0 := rfl

theorem fresh_grounded (sizes : 2 ≤ l2 ∧ l2 ≤ l1) :
    Grounded E Memory.initial (fresh l1 l2 s1 s2 : Holemerge α) where
  framed := ⟨sizes, rfl, .none, by simp [fresh, Three.null, Three.toList],
    by simp [fresh, Three.null, Three.toList], by simp [fresh]⟩
  sound := rfl
  rooted s hs := by simp [fresh_slots] at hs
  apart := by simp [fresh_slots]
  denied d hd := by simp [Memory.initial] at hd

theorem fresh_homed : Homed E Memory.initial (fresh l1 l2 s1 s2 : Holemerge α) where
  srcs := by simp [fresh_slots]
  tallied t ht := by simp [fresh, Three.null, Three.toList] at ht
  owners d hd := by simp [Memory.initial] at hd
  heeds s hs := by simp [fresh_slots] at hs

theorem fresh_exact : Exact E Memory.initial (fresh l1 l2 s1 s2 : Holemerge α) where
  distinct s hs := by simp [fresh_slots] at hs
  numbered s hs := by simp [fresh_slots] at hs

theorem fresh_whole (sizes : 2 ≤ l2 ∧ l2 ≤ l1) :
    Whole E Memory.initial (fresh l1 l2 s1 s2 : Holemerge α) :=
  ⟨fresh_grounded sizes, fresh_homed, fresh_exact⟩

end Fresh

namespace BSlot

variable {b : BSlot α}

/-- What a `bSlot` stores, if its own S-CHTs and entries are left alone. -/
structure Same (E : Env) (m m' : Memory α) (b : BSlot α) : Prop where
  rooted : b.Rooted E m'
  items : m'.own b.src = m.own b.src → b.items E m' = b.items E m
  numbered : b.Numbered E m → b.Numbered E m'

theorem Rooted.same (rooted : b.Rooted E m)
    (frame : ∀ a ∈ b.addrs, ∀ c, m.heap.get a = some c → m'.heap.get a = some c) :
    b.Same E m m' := by
  obtain ⟨src, body⟩ := b
  cases body with
  | inline pt cells => exact ⟨trivial, fun _ => rfl, fun _ => trivial⟩
  | chts slot =>
      have rooted : CuckooGraph.Rooted E m slot := rooted
      have view : slot.map m'.heap.get = slot.map m.heap.get := by
        have at_ : ∀ s : Option Addr, (∀ a ∈ s, a ∈ slot.toList) →
            s.bind m'.heap.get = s.bind m.heap.get := by
          intro s inside
          cases s with
          | none => rfl
          | some a =>
              obtain ⟨c, live, -⟩ := rooted.live a (inside a rfl)
              exact (frame a (inside a rfl) c live).trans live.symm
        refine (Three.mk.injEq ..).mpr ⟨at_ _ fun a ha => ?_, at_ _ fun a ha => ?_, at_ _ fun a ha => ?_⟩
        · exact Three.mem_toList.mpr ⟨0, ha⟩
        · exact Three.mem_toList.mpr ⟨1, ha⟩
        · exact Three.mem_toList.mpr ⟨2, ha⟩
      refine ⟨⟨rooted.nodup, fun a ha => ?_, view ▸ rooted.tower⟩, fun own => ?_, fun numbered => ?_⟩
      · obtain ⟨c, live, placed⟩ := rooted.live a ha
        exact ⟨c, frame a ha c live, placed⟩
      · change (slot.map m'.heap.get).stored _ + _ = (slot.map m.heap.get).stored _ + _
        rw [view, own]
      · have numbered : CuckooGraph.Numbered E m slot := numbered
        have after : CuckooGraph.Numbered E m' slot := by rwa [CuckooGraph.Numbered, view]
        exact after

omit [Entry α] in
theorem Heeds.same (heeds : b.Heeds m) (own : m'.own b.src = m.own b.src) : b.Heeds m' := by
  obtain ⟨src, body⟩ := b
  cases body with
  | inline pt cells => exact own.trans heeds
  | chts slot => trivial

theorem addrs_nodup (rooted : b.Rooted E m) : b.addrs.Nodup := by
  obtain ⟨src, body⟩ := b
  cases body with
  | inline pt cells => exact List.nodup_nil
  | chts slot => exact CuckooGraph.Rooted.nodup rooted

theorem addrs_live (rooted : b.Rooted E m) {a : Addr} (ha : a ∈ b.addrs) :
    ∃ c, m.heap.get a = some c := by
  obtain ⟨src, body⟩ := b
  cases body with
  | inline pt cells => simp [addrs] at ha
  | chts slot =>
      obtain ⟨c, live, -⟩ := CuckooGraph.Rooted.live rooted a ha
      exact ⟨c, live⟩

end BSlot

section Turn

variable {s s' : BSlot α} {rest : Multiset (BSlot α)}

/-- The S-CHTs of the other `bSlot`s survive a turn of one of them. -/
theorem Grounded.others_same (g : Grounded E m h) (split : h.slots E = s ::ₘ rest)
    (turn : SlotTurn E m s m' s') {t : BSlot α} (ht : t ∈ rest) : t.Same E m m' := by
  apply (g.rooted t (by rw [split]; exact Multiset.mem_cons_of_mem ht)).same
  intro a ha c live
  refine turn.frame a c live fun shared => ?_
  have apart := g.apart
  rw [split, Multiset.cons_bind] at apart
  exact Multiset.disjoint_left.mp (Multiset.nodup_add.mp apart).2.2 shared
    (Multiset.mem_bind.mpr ⟨t, ht, ha⟩)

theorem Grounded.turn (g : Grounded E m h) (split : h.slots E = s ::ₘ rest)
    (turn : SlotTurn E m s m' s') (framed : h'.Framed E) (le : h'.slots E ≤ s' ::ₘ rest) :
    Grounded E m' h' where
  framed := framed
  sound := turn.fault.trans g.sound
  rooted t ht := by
    rcases Multiset.mem_cons.mp (Multiset.mem_of_le le ht) with rfl | ht
    · exact turn.rooted
    · exact (g.others_same split turn ht).rooted
  apart := by
    have apart := g.apart
    rw [split, Multiset.cons_bind, Multiset.nodup_add] at apart
    obtain ⟨-, others, disjoint⟩ := apart
    have after : ((s' ::ₘ rest).bind fun s => (s.addrs : Multiset Addr)).Nodup := by
      rw [Multiset.cons_bind, Multiset.nodup_add]
      refine ⟨Multiset.coe_nodup.mpr (BSlot.addrs_nodup turn.rooted), others, ?_⟩
      refine Multiset.disjoint_left.mpr ?_
      intro a mine other
      obtain ⟨t, ht, ha⟩ := Multiset.mem_bind.mp other
      rcases turn.fresh a mine with before | dead
      · exact Multiset.disjoint_left.mp disjoint before other
      · obtain ⟨c, live⟩ := BSlot.addrs_live
          (g.rooted t (by rw [split]; exact Multiset.mem_cons_of_mem ht)) ha
        rw [dead] at live
        cases live
    refine Multiset.nodup_of_le ?_ after
    obtain ⟨more, whole⟩ := Multiset.le_iff_exists_add.mp le
    rw [whole, Multiset.add_bind]
    exact Multiset.le_add_right _ _
  denied d hd := by
    have member : d.item ∈ m'.own d.src := Memory.mem_own.mpr hd
    by_cases mine : d.src = s.src
    · have known := g.framed.slot_src (s := s) (by rw [split]; exact Multiset.mem_cons_self s rest)
      rw [mine] at member ⊢
      refine ⟨known, turn.owned (fun x hx => ?_) d.item member⟩
      exact (g.denied _ (Memory.mem_own.mp hx)).2
    · rw [turn.others d.src mine] at member
      exact g.denied d (Memory.mem_own.mp member)

/-- There is one `bSlot` for each source. -/
theorem Homed.unique (o : Homed E m h) (hs : s ∈ h.slots E) (hs' : s' ∈ h.slots E)
    (same : s.src = s'.src) : s = s' := Multiset.inj_on_of_nodup_map o.srcs s hs s' hs' same

/-- Every other `bSlot` has another source. -/
theorem Homed.other_src (o : Homed E m h) (split : h.slots E = s ::ₘ rest) {t : BSlot α} (ht : t ∈ rest) :
    t.src ≠ s.src := by
  have srcs := o.srcs
  rw [split, Multiset.map_cons, Multiset.nodup_cons] at srcs
  exact fun same => srcs.1 (Multiset.mem_map.mpr ⟨t, ht, same⟩)

theorem Homed.turn (o : Homed E m h) (split : h.slots E = s ::ₘ rest)
    (turn : SlotTurn E m s m' s') (src : s'.src = s.src) (heeds : s'.Heeds m')
    (whole : h'.slots E = s' ::ₘ rest) (tallies : h.Tallies E h') : Homed E m' h' where
  srcs := by
    have srcs := o.srcs
    rw [split, Multiset.map_cons, ← src, ← Multiset.map_cons] at srcs
    rwa [whole]
  tallied := tallies o.tallied
  owners d hd := by
    rw [whole]
    by_cases mine : d.src = s.src
    · exact ⟨s', Multiset.mem_cons_self s' rest, src.trans mine.symm⟩
    · have member := Memory.mem_own.mpr hd
      rw [turn.others d.src mine] at member
      obtain ⟨t, ht, same⟩ := o.owners ⟨d.src, d.item⟩ (Memory.mem_own.mp member)
      rw [split] at ht
      rcases Multiset.mem_cons.mp ht with rfl | ht
      · exact absurd same.symm mine
      · exact ⟨t, Multiset.mem_cons_of_mem ht, same⟩
  heeds t ht := by
    rw [whole] at ht
    rcases Multiset.mem_cons.mp ht with rfl | ht
    · exact heeds
    · exact (o.heeds t (by rw [split]; exact Multiset.mem_cons_of_mem ht)).same
        (turn.others t.src (o.other_src split ht))

/-- A `bSlot` which has become empty leaves with its denylisted entries. -/
theorem Homed.gone (o : Homed E m h) (split : h.slots E = s ::ₘ rest)
    (turn : SlotTurn E m s m' s') (none : m'.own s.src = []) (whole : h'.slots E = rest)
    (tallied : h'.Tallied E) : Homed E m' h' where
  srcs := by
    have srcs := o.srcs
    rw [split, Multiset.map_cons] at srcs
    rw [whole]
    exact (Multiset.nodup_cons.mp srcs).2
  tallied := tallied
  owners d hd := by
    have member := Memory.mem_own.mpr hd
    by_cases mine : d.src = s.src
    · rw [mine, none] at member
      cases member
    · rw [turn.others d.src mine] at member
      obtain ⟨t, ht, same⟩ := o.owners ⟨d.src, d.item⟩ (Memory.mem_own.mp member)
      rw [split] at ht
      rcases Multiset.mem_cons.mp ht with rfl | ht
      · exact absurd same.symm mine
      · exact ⟨t, whole ▸ ht, same⟩
  heeds t ht := by
    rw [whole] at ht
    exact (o.heeds t (by rw [split]; exact Multiset.mem_cons_of_mem ht)).same
      (turn.others t.src (o.other_src split ht))

/-- What the other `bSlot`s store is left alone. -/
theorem other_items (g : Grounded E m h) (o : Homed E m h) (split : h.slots E = s ::ₘ rest)
    (turn : SlotTurn E m s m' s') {t : BSlot α} (ht : t ∈ rest) : t.items E m' = t.items E m :=
  (g.others_same split turn ht).items (turn.others t.src (o.other_src split ht))

theorem Exact.others (g : Grounded E m h) (o : Homed E m h) (x : Exact E m h)
    (split : h.slots E = s ::ₘ rest) (turn : SlotTurn E m s m' s') (whole : h'.slots E = rest) :
    Exact E m' h' := by
  have before : ∀ t ∈ rest, t ∈ h.slots E := fun t ht => by
    rw [split]
    exact Multiset.mem_cons_of_mem ht
  refine ⟨?_, ?_⟩
  all_goals
    intro t ht
    rw [whole] at ht
  · rw [other_items g o split turn ht]
    exact x.distinct t (before t ht)
  · exact (g.others_same split turn ht).numbered (x.numbered t (before t ht))

theorem Exact.turn (g : Grounded E m h) (o : Homed E m h) (x : Exact E m h)
    (split : h.slots E = s ::ₘ rest) (turn : SlotTurn E m s m' s') (whole : h'.slots E = s' ::ₘ rest)
    (distinct : Distinct (s'.items E m')) (numbered : s'.Numbered E m') : Exact E m' h' := by
  have before : ∀ t ∈ rest, t ∈ h.slots E := fun t ht => by
    rw [split]
    exact Multiset.mem_cons_of_mem ht
  refine ⟨?_, ?_⟩
  all_goals
    intro t ht
    rw [whole] at ht
    rcases Multiset.mem_cons.mp ht with rfl | ht
  · exact distinct
  · rw [other_items g o split turn ht]
    exact x.distinct t (before t ht)
  · exact numbered
  · exact (g.others_same split turn ht).numbered (x.numbered t (before t ht))

end Turn

section Draws

variable {n : Nat}

/-- Moves of `bSlot`s change neither these nor the memory, draws apart. -/
theorem Grounded.moves (g : Grounded E m h) (memory : m' = { m with rands := n })
    (framed : h'.Framed E) (le : h'.slots E ≤ h.slots E) : Grounded E m' h' := by
  subst memory
  refine ⟨framed, g.sound, fun s hs => ?_, ?_, g.denied⟩
  · have same : s.Same E m { m with rands := n } :=
      (g.rooted s (Multiset.mem_of_le le hs)).same fun a _ c live => live
    exact same.rooted
  · obtain ⟨more, whole⟩ := Multiset.le_iff_exists_add.mp le
    refine Multiset.nodup_of_le ?_ g.apart
    rw [whole, Multiset.add_bind]
    exact Multiset.le_add_right _ _

theorem Homed.moves (o : Homed E m h) (memory : m' = { m with rands := n })
    (same : h'.slots E = h.slots E) (tallied : h'.Tallied E) : Homed E m' h' := by
  subst memory
  exact ⟨same ▸ o.srcs, tallied, same ▸ o.owners, same ▸ o.heeds⟩

theorem Exact.moves (x : Exact E m h) (memory : m' = { m with rands := n })
    (same : h'.slots E = h.slots E) : Exact E m' h' := by
  subst memory
  exact ⟨same ▸ x.distinct, same ▸ x.numbered⟩

end Draws

section New

variable [LawfulEntry α] {e : Arc α} {r : Memory α × Holemerge α × Bool}

omit [LawfulEntry α] in
/-- The `bSlot` of a new source has no S-CHTs. -/
theorem Grounded.housed (g : Grounded E m h) (housed : Housed E m h e r) : Grounded E r.1 r.2.1 := by
  obtain ⟨n, memory⟩ := housed.memory
  refine ⟨housed.moves.framed, ?_, fun s hs => ?_, ?_, ?_⟩
  · rw [memory]
    exact g.sound
  · rw [housed.slots] at hs
    rcases Multiset.mem_cons.mp hs with rfl | hs
    · trivial
    · exact ((g.rooted s hs).same fun a _ c live => by rw [memory]; exact live).rooted
  · rw [housed.slots, Multiset.cons_bind]
    simpa [BSlot.single, BSlot.addrs] using g.apart
  · rw [memory]
    exact g.denied

omit [LawfulEntry α] in
theorem Homed.housed (o : Homed E m h) (housed : Housed E m h e r)
    (absent : ∀ s ∈ h.slots E, s.src ≠ e.src) : Homed E r.1 r.2.1 := by
  obtain ⟨n, memory⟩ := housed.memory
  refine ⟨?_, housed.tallies o.tallied, fun d hd => ?_, fun s hs => ?_⟩
  · rw [housed.slots, Multiset.map_cons, Multiset.nodup_cons]
    refine ⟨fun shared => ?_, o.srcs⟩
    obtain ⟨s, hs, same⟩ := Multiset.mem_map.mp shared
    exact absent s hs same
  · rw [memory] at hd
    obtain ⟨s, hs, same⟩ := o.owners d hd
    exact ⟨s, by rw [housed.slots]; exact Multiset.mem_cons_of_mem hs, same⟩
  · rw [memory]
    rw [housed.slots] at hs
    rcases Multiset.mem_cons.mp hs with rfl | hs
    · refine List.eq_nil_iff_forall_not_mem.mpr fun x hx => ?_
      obtain ⟨s, hs, same⟩ := o.owners _ (Memory.mem_own.mp hx)
      exact absent s hs same
    · exact o.heeds s hs

theorem Exact.housed (x : Exact E m h) (housed : Housed E m h e r) (known : e.src ≠ 0)
    (hd : Entry.dst e.item ≠ 0) : Exact E r.1 r.2.1 := by
  obtain ⟨n, memory⟩ := housed.memory
  have items : (BSlot.single e).items E r.1 = {e.item} := (BSlot.single_inline known hd).2
  refine ⟨?_, ?_⟩
  all_goals
    intro s hs
    rw [housed.slots] at hs
    rcases Multiset.mem_cons.mp hs with rfl | hs
  · rw [items]
    simp [Distinct]
  · rw [memory]
    exact x.distinct s hs
  · trivial
  · rw [memory]
    exact x.numbered s hs

end New

end CuckooGraph
