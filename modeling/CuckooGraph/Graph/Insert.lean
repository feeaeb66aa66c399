import CuckooGraph.Graph.Invariant

/-! # Inserting an edge

`holemerge::insert` writes to the `bSlot` of the source, or places a new one.
What a build must know of its own `bSlot` for this is `Faithful`; the rest is
the same for both.
-/

namespace CuckooGraph

open TwoLayer Holemerge

variable {α : Type} [Entry α] {E : Env}

/-- `items'` are `items` with an entry for the destination of `e`: `e` itself,
    or what has become of the entry that was there. -/
def Puts (e : α) (items items' : Multiset α) : Prop :=
  (∃ c ∈ items, ∃ c', Entry.dst c = Entry.dst e ∧ Entry.dst c' = Entry.dst e ∧
    items' + {c} = items + {c'}) ∨
  ((∀ c ∈ items, Entry.dst c ≠ Entry.dst e) ∧ items' = items + {e})

namespace Puts

variable {e : α} {items items' : Multiset α}

theorem distinct (puts : Puts e items items') (before : Distinct items) : Distinct items' := by
  rcases puts with ⟨c, -, c', old, new, exchange⟩ | ⟨absent, rfl⟩
  · have dsts := congrArg (Multiset.map Entry.dst) exchange
    simp only [Multiset.map_add, Multiset.map_singleton, old, new] at dsts
    rw [Distinct, add_right_cancel dsts]
    exact before
  · rw [add_comm, Multiset.singleton_add, distinct_cons]
    exact ⟨absent, before⟩

/-- The destination is among those stored afterwards, and no other one is new. -/
theorem mem_dsts (puts : Puts e items items') (d : Key) :
    d ∈ items'.map Entry.dst ↔ d ∈ items.map Entry.dst ∨ d = Entry.dst e := by
  rcases puts with ⟨c, hc, c', old, new, exchange⟩ | ⟨-, rfl⟩
  · have dsts := congrArg (Multiset.map Entry.dst) exchange
    simp only [Multiset.map_add, Multiset.map_singleton, old, new] at dsts
    rw [add_right_cancel dsts]
    refine ⟨.inl, fun here => here.elim id fun same => ?_⟩
    rw [same, ← old]
    exact Multiset.mem_map_of_mem _ hc
  · rw [Multiset.map_add, Multiset.map_singleton, Multiset.mem_add, Multiset.mem_singleton]

end Puts

/-- What `holemerge::insert` does with the `bSlot` it has found. -/
def SlotOps.touch (O : SlotOps α) (m : Memory α) (s : BSlot α) (e : Arc α) : Memory α × BSlot α :=
  let (m, s, sure) := O.probe m s e
  if sure then (m, s)
  else
    let (m, s, _) := O.insert m s e
    (m, s)

/-- The `bSlot` of the source stores the destination afterwards. -/
structure Touched (E : Env) (m : Memory α) (s : BSlot α) (e : Arc α) (r : Memory α × BSlot α) : Prop where
  src : r.2.src = s.src
  turn : SlotTurn E m s r.1 r.2
  heeds : s.Heeds m → r.2.Heeds r.1
  puts : s.Heeds m → Distinct (s.items E m) →
    (s.Numbered E m → r.2.Numbered E r.1) ∧ Puts e.item (s.items E m) (r.2.items E r.1)

/-- What is asked of the operations of a `bSlot`. -/
structure SlotOps.Faithful (E : Env) (O : SlotOps α) : Prop extends O.Lawful where
  touched : ∀ m s e, s.Tidy → s.Rooted E m → (∀ x ∈ m.own s.src, Entry.dst x ≠ 0) → s.src = e.src →
    e.src ≠ 0 → Entry.dst e.item ≠ 0 → Touched E m s e (O.touch m s e)

namespace Holemerge

variable {O : SlotOps α} {m : Memory α} {h : Holemerge α} {e : Arc α}

theorem insertArc_some {loc : Loc} {s : BSlot α} (found : h.locate E e.src = some (loc, s)) :
    insertArc E O m h e = ((O.touch m s e).1, h.setAt E loc (O.touch m s e).2, true) := by
  simp only [insertArc, found, SlotOps.touch]
  split <;> rfl

theorem insertArc_none (missing : h.locate E e.src = none) : insertArc E O m h e = place E O m h e := by
  simp only [insertArc, missing]

/-- One `bSlot` is touched, the others stay. -/
structure Retouched (E : Env) (O : SlotOps α) (m : Memory α) (h : Holemerge α) (e : Arc α)
    (s : BSlot α) (rest : Multiset (BSlot α)) (r : Memory α × Holemerge α × Bool) : Prop where
  split : h.slots E = s ::ₘ rest
  src : s.src = e.src
  memory : r.1 = (O.touch m s e).1
  touched : Touched E m s e (O.touch m s e)
  framed : r.2.1.Framed E
  whole : r.2.1.slots E = (O.touch m s e).2 ::ₘ rest
  tallies : h.Tallies E r.2.1

/-- An insertion touches the `bSlot` of the source, or places a new one. -/
theorem insertArc_cases [LawfulEntry α] (faithful : O.Faithful E) (g : Grounded E m h)
    (known : e.src ≠ 0) (hd : Entry.dst e.item ≠ 0) :
    (∃ s rest, Retouched E O m h e s rest (insertArc E O m h e)) ∨
      ((∀ s ∈ h.slots E, s.src ≠ e.src) ∧ Housed E m h e (insertArc E O m h e)) := by
  cases found : h.locate E e.src with
  | none =>
      have absent := locate_none g.framed found
      rw [insertArc_none found]
      exact .inr ⟨absent, place_housed faithful.toLawful g.framed known hd absent⟩
  | some place =>
      obtain ⟨loc, s⟩ := place
      obtain ⟨stands, same⟩ := locate_some g.framed found
      have used : s.src ≠ 0 := same ▸ known
      have hs := stands.mem g.framed used
      obtain ⟨rest, split⟩ := Multiset.exists_cons_of_mem hs
      have touched := faithful.touched m s e (g.framed.slot_tidy hs).1 (g.rooted s hs)
        (fun x hx => (g.denied _ (Memory.mem_own.mp hx)).2) same known hd
      obtain ⟨moves, tallies⟩ := setAt_moves g.framed stands used touched.turn.tidy touched.src
      rw [insertArc_some found]
      exact .inl ⟨s, rest, split, same, rfl, touched, moves.framed, moves.exchange split, tallies⟩

/-- No source comes in but that of the edge. -/
theorem insertArc_srcs [LawfulEntry α] (faithful : O.Faithful E) (g : Grounded E m h)
    (known : e.src ≠ 0) (hd : Entry.dst e.item ≠ 0) {s : BSlot α}
    (hs : s ∈ (insertArc E O m h e).2.1.slots E) : s.src = e.src ∨ s ∈ h.slots E := by
  rcases insertArc_cases faithful g known hd with ⟨b, rest, re⟩ | ⟨-, housed⟩
  · rw [re.whole] at hs
    rcases Multiset.mem_cons.mp hs with rfl | hs
    · exact .inl (re.touched.src.trans re.src)
    · rw [re.split]
      exact .inr (Multiset.mem_cons_of_mem hs)
  · rw [housed.slots] at hs
    rcases Multiset.mem_cons.mp hs with rfl | hs
    · exact .inl rfl
    · exact .inr hs

/-- An insertion for a source which is there leaves the sources as they are. -/
theorem insertArc_present [LawfulEntry α] (faithful : O.Faithful E) (g : Grounded E m h)
    (known : e.src ≠ 0) (hd : Entry.dst e.item ≠ 0) (present : ∃ s ∈ h.slots E, s.src = e.src) :
    ((insertArc E O m h e).2.1.slots E).map BSlot.src = (h.slots E).map BSlot.src := by
  rcases insertArc_cases faithful g known hd with ⟨b, rest, re⟩ | ⟨absent, -⟩
  · rw [re.whole, re.split, Multiset.map_cons, Multiset.map_cons, re.touched.src]
  · obtain ⟨s, hs, same⟩ := present
    exact absurd same (absent s hs)

end Holemerge

section Keep

variable {O : SlotOps α} {m : Memory α} {h : Holemerge α} {e : Arc α} [LawfulEntry α]
  (faithful : O.Faithful E) (g : Grounded E m h) (known : e.src ≠ 0) (hd : Entry.dst e.item ≠ 0)

include faithful g known hd

theorem insertArc_grounded : Grounded E (insertArc E O m h e).1 (insertArc E O m h e).2.1 := by
  rcases insertArc_cases faithful g known hd with ⟨s, rest, re⟩ | ⟨-, housed⟩
  · have turn := re.touched.turn
    rw [← re.memory] at turn
    exact g.turn re.split turn re.framed re.whole.le
  · exact g.housed housed

theorem insertArc_homed (o : Homed E m h) :
    Homed E (insertArc E O m h e).1 (insertArc E O m h e).2.1 := by
  rcases insertArc_cases faithful g known hd with ⟨s, rest, re⟩ | ⟨absent, housed⟩
  · have hs : s ∈ h.slots E := by
      rw [re.split]
      exact Multiset.mem_cons_self s rest
    have heeds := re.touched.heeds (o.heeds s hs)
    have turn := re.touched.turn
    rw [← re.memory] at turn heeds
    exact o.turn re.split turn re.touched.src heeds re.whole re.tallies
  · exact o.housed housed absent

theorem insertArc_exact (o : Homed E m h) (x : Exact E m h) :
    Exact E (insertArc E O m h e).1 (insertArc E O m h e).2.1 := by
  rcases insertArc_cases faithful g known hd with ⟨s, rest, re⟩ | ⟨absent, housed⟩
  · have hs : s ∈ h.slots E := by
      rw [re.split]
      exact Multiset.mem_cons_self s rest
    obtain ⟨numbered, puts⟩ := re.touched.puts (o.heeds s hs) (x.distinct s hs)
    have turn := re.touched.turn
    rw [← re.memory] at turn puts numbered
    exact x.turn g o re.split turn re.whole (puts.distinct (x.distinct s hs))
      (numbered (x.numbered s hs))
  · exact x.housed housed known hd

omit g in
theorem insertArc_whole (w : Whole E m h) :
    Whole E (insertArc E O m h e).1 (insertArc E O m h e).2.1 :=
  ⟨insertArc_grounded faithful w.grounded known hd,
    insertArc_homed faithful w.grounded known hd w.homed,
    insertArc_exact faithful w.grounded known hd w.homed w.exact⟩

end Keep

/-- What is stored for a source in some `bSlot`s. -/
def itemsOf (E : Env) (m : Memory α) (slots : Multiset (BSlot α)) (src : Key) : Multiset α :=
  (slots.filter fun s => s.src = src).bind fun s => s.items E m

/-- What the graph stores for a source. -/
def entries (E : Env) (m : Memory α) (h : Holemerge α) (src : Key) : Multiset α :=
  itemsOf E m (h.slots E) src

section Entries

variable {m m' : Memory α} {h h' : Holemerge α} {s s' : BSlot α} {rest : Multiset (BSlot α)}
  {src : Key}

theorem mem_entries {x : α} : x ∈ entries E m h src ↔ ∃ s ∈ h.slots E, s.src = src ∧ x ∈ s.items E m := by
  simp [entries, itemsOf, and_assoc]

/-- No destination 0 is stored. -/
theorem entries_known (g : Grounded E m h) {x : α} (hx : x ∈ entries E m h src) : Entry.dst x ≠ 0 := by
  obtain ⟨⟨s, body⟩, -, -, hx⟩ := mem_entries.mp hx
  cases body with
  | inline pt cells => exact (mem_filled.mp hx).2
  | chts slot =>
      rcases Multiset.mem_add.mp hx with hx | hx
      · obtain ⟨c, -, hx⟩ := Three.mem_stored.mp hx
        exact chtCells_free.mp ((Table.mem_stored c).mp hx).2
      · exact (g.denied _ (Memory.mem_own.mp hx)).2

theorem itemsOf_absent {slots : Multiset (BSlot α)} (absent : ∀ s ∈ slots, s.src ≠ src) :
    itemsOf E m slots src = 0 := by
  rw [itemsOf, Multiset.filter_eq_nil.mpr absent, Multiset.zero_bind]

theorem itemsOf_cons_self (s : BSlot α) (slots : Multiset (BSlot α)) :
    itemsOf E m (s ::ₘ slots) s.src = s.items E m + itemsOf E m slots s.src := by
  simp [itemsOf]

theorem itemsOf_cons_ne (slots : Multiset (BSlot α)) (other : s.src ≠ src) :
    itemsOf E m (s ::ₘ slots) src = itemsOf E m slots src := by
  simp [itemsOf, other]

/-- The entries of a source are those of its one `bSlot`. -/
theorem entries_self (o : Homed E m h) (split : h.slots E = s ::ₘ rest) :
    entries E m h s.src = s.items E m := by
  rw [entries, split, itemsOf_cons_self, itemsOf_absent fun t ht => o.other_src split ht, add_zero]

/-- A turn leaves the entries of other sources alone. -/
theorem entries_other (g : Grounded E m h) (o : Homed E m h) (split : h.slots E = s ::ₘ rest)
    (turn : SlotTurn E m s m' s') (other : src ≠ s.src) :
    itemsOf E m' rest src = entries E m h src := by
  rw [entries, split, itemsOf_cons_ne rest (Ne.symm other)]
  refine Multiset.bind_congr fun t ht => ?_
  exact other_items g o split turn (Multiset.mem_of_mem_filter ht)

end Entries

section Made

variable {O : SlotOps α} {m : Memory α} {h : Holemerge α} {e : Arc α}

namespace Holemerge

/-- The sizes a graph was made with, and its seeds. -/
def made (h : Holemerge α) : (Nat × Nat) × Int × Int := ((h.ll1, h.ll2), h.s1, h.s2)

theorem made_setAt (loc : Loc) (s : BSlot α) : (h.setAt E loc s).made = h.made := by
  cases loc with
  | link i flag ha j =>
      simp only [setAt]
      split <;> rfl
  | denied j => rfl

theorem made_place : (place E O m h e).2.1.made = h.made := by
  unfold place
  repeat' split
  all_goals rfl

theorem made_insertArc : (insertArc E O m h e).2.1.made = h.made := by
  unfold insertArc
  split
  · dsimp only
    split <;> exact made_setAt _ _
  · exact made_place

end Holemerge

end Made

section Effect

variable [LawfulEntry α] {O : SlotOps α} {m : Memory α} {h : Holemerge α} {e : Arc α}
  (faithful : O.Faithful E) (w : Whole E m h) (known : e.src ≠ 0) (hd : Entry.dst e.item ≠ 0)

include faithful w known hd

/-- The entries of the source are those of the touched `bSlot`, or the new one. -/
theorem insertArc_source :
    let r := insertArc E O m h e
    (∃ s ∈ h.slots E, s.src = e.src ∧ entries E m h e.src = s.items E m ∧
        entries E r.1 r.2.1 e.src = (O.touch m s e).2.items E (O.touch m s e).1) ∨
      ((∀ s ∈ h.slots E, s.src ≠ e.src) ∧ entries E m h e.src = 0 ∧
        entries E r.1 r.2.1 e.src = {e.item}) := by
  have homed := insertArc_homed faithful w.grounded known hd w.homed
  intro r
  rcases insertArc_cases faithful w.grounded known hd with ⟨s, rest, re⟩ | ⟨absent, housed⟩
  · have self := entries_self homed re.whole
    rw [re.touched.src, re.src, re.memory] at self
    refine .inl ⟨s, ?_, re.src, ?_, ?_⟩
    · rw [re.split]
      exact Multiset.mem_cons_self s rest
    · rw [← re.src]
      exact entries_self w.homed re.split
    · rw [← re.memory] at self ⊢
      exact self
  · have self : entries E r.1 r.2.1 e.src = (BSlot.single e).items E r.1 :=
      entries_self homed housed.slots
    refine .inr ⟨absent, itemsOf_absent absent, self.trans ?_⟩
    exact (BSlot.single_inline known hd).2

/-- The entries of other sources are left alone. -/
theorem insertArc_frame {src : Key} (other : src ≠ e.src) :
    entries E (insertArc E O m h e).1 (insertArc E O m h e).2.1 src = entries E m h src := by
  rcases insertArc_cases faithful w.grounded known hd with ⟨s, rest, re⟩ | ⟨absent, housed⟩
  · have turn := re.touched.turn
    rw [← re.memory] at turn
    rw [← entries_other w.grounded w.homed re.split turn (re.src.symm ▸ other), entries, re.whole]
    apply itemsOf_cons_ne
    rw [re.touched.src, re.src]
    exact other.symm
  · obtain ⟨n, memory⟩ := housed.memory
    rw [entries, housed.slots, memory]
    exact itemsOf_cons_ne _ other.symm

/-- The entry of the edge is put in. -/
theorem insertArc_puts : Puts e.item (entries E m h e.src)
    (entries E (insertArc E O m h e).1 (insertArc E O m h e).2.1 e.src) := by
  rcases insertArc_source faithful w known hd with ⟨s, hs, same, before, after⟩ | ⟨-, before, after⟩
  · rw [before, after]
    have touched := faithful.touched m s e (w.grounded.framed.slot_tidy hs).1 (w.grounded.rooted s hs)
      (fun x hx => (w.grounded.denied _ (Memory.mem_own.mp hx)).2) same known hd
    exact (touched.puts (w.homed.heeds s hs) (w.exact.distinct s hs)).2
  · rw [before, after]
    exact .inr ⟨by simp, by rw [zero_add]⟩

theorem insertArc_dsts (src d : Key) :
    d ∈ (entries E (insertArc E O m h e).1 (insertArc E O m h e).2.1 src).map Entry.dst ↔
      d ∈ (entries E m h src).map Entry.dst ∨ src = e.src ∧ d = Entry.dst e.item := by
  by_cases mine : src = e.src
  · subst mine
    simpa using (insertArc_puts faithful w known hd).mem_dsts d
  · rw [insertArc_frame faithful w known hd mine]
    simp [mine]

end Effect

/-- `insert` never comes to its exit for a wrong state. -/
theorem insertArc_true {O : SlotOps α} {m : Memory α} {h : Holemerge α} {a : Arc α} (framed : h.Framed E) :
    (insertArc E O m h a).2.2 = true := by
  have few : h.link.toList.length ≤ 3 := by
    obtain ⟨t0, t1, t2⟩ := h.link
    cases t0 <;> cases t1 <;> cases t2 <;> simp [Three.toList]
  have state := framed.state
  unfold insertArc
  split
  · split
    split <;> rfl
  · unfold place
    split
    · rfl
    · split
      · split
        · split <;> rfl
        · rfl
      · split
        · split
          · rfl
          · split <;> rfl
        · rw [if_pos (by omega)]
          split
          · rfl
          · split <;> rfl

end CuckooGraph
