import CuckooGraph.Graph.Place

/-! # How long blacklist gets

A new source makes `blacklist` longer only where there was room, or by a merge.
-/

namespace CuckooGraph

open TwoLayer

namespace Holemerge

variable {α : Type} [Entry α] {E : Env} {O : SlotOps α} {m : Memory α} {h : Holemerge α} {e : Arc α}
  {t : BCuckoo α}

/-- If three links are merged for a new source, what the merge pushes fits. -/
def LinksFit (E : Env) (m : Memory α) (h : Holemerge α) : Prop :=
  ∀ c0 c1 c2, h.link = ⟨some c0, some c1, some c2⟩ → h.roomyLink = none →
    h.blacklist.length +
      (Table.merge (h.slotCells E) kicktimes E.rand c0 c1 c2 m.rands).left.length ≤ bbl

instance : Decidable (LinksFit E m h) :=
  decidable_of_iff (∀ c0 ∈ h.link.s0, ∀ c1 ∈ h.link.s1, ∀ c2 ∈ h.link.s2, h.roomyLink = none →
      h.blacklist.length + (Table.merge (h.slotCells E) kicktimes E.rand c0 c1 c2 m.rands).left.length ≤ bbl)
    ⟨fun all c0 c1 c2 three => all c0 (by rw [three]; rfl) c1 (by rw [three]; rfl) c2 (by rw [three]; rfl),
      fun all c0 h0 c1 h1 c2 h2 => all c0 c1 c2 (Three.of_parts h0 h1 h2)⟩

theorem length_insertInto (i : Nat) :
    (insertInto E O m h i t e).2.1.blacklist.length ≤ h.blacklist.length + 1 := by
  simp only [insertInto]
  generalize insertEdge E O h m t e = r
  obtain ⟨m', t', left⟩ := r
  cases left <;> simp

omit [Entry α] in
theorem roomyLink_room {i : Nat} (found : h.roomyLink = some (i, t)) : h.blacklist.length < bbl := by
  obtain ⟨j, -, here⟩ := List.exists_of_findSome?_eq_some found
  split at here
  · split at here
    · rename_i room
      simp only [Bool.and_eq_true, decide_eq_true_eq] at room
      exact room.2
    · cases here
  · cases here

section

variable [LawfulEntry α] (ops : O.Lawful) (framed : h.Framed E) (known : e.src ≠ 0)

include ops framed known

omit [LawfulEntry α] in
theorem length_place_first : (insertInto E O m { h with state := 0 } 0
    (Table.new (h.slotCells E) h.ll1 h.ll2) e).2.1.blacklist.length ≤ h.blacklist.length := by
  let new : BCuckoo α := Table.new (h.slotCells E) h.ll1 h.ll2
  have base : new.Scaled h.ll1 h.ll2 := Table.scaled_new (framed.sizes.1.trans framed.sizes.2) framed.sizes.1
  have ready := base.ready
  have vacant : new.stored (h.slotCells E) = 0 := Table.stored_new slotCells_lawful _ _
  have blank : ∀ s ∈ new.cells, s = BSlot.empty := fun s hs => Table.mem_new _ _ hs
  have unfolded := insertEdge_eq (E := E) (h := { h with state := 0 }) (m := m) ops ready
    (fun s hs _ => blank s hs) (fun s hs => by
      rw [blank s hs]
      exact known.symm)
  have settled := Table.insert_room (x := BSlot.single e) ready (by rw [vacant]; norm_num) kicktimes
    E.rand m.rands
  have same : insertEdge E O { h with state := 0 } m new e = _ := unfolded
  simp only [insertInto]
  rw [same]
  change (h.blacklist ++ (new.insert (h.slotCells E) kicktimes E.rand m.rands
    (BSlot.single e)).left.toList).length ≤ _
  rw [settled]
  simp

variable (hd : Entry.dst e.item ≠ 0) (absent : ∀ s ∈ h.slots E, s.src ≠ e.src)

include hd absent

/-- The new table takes one `bSlot` at least. -/
theorem length_openLink (i l1 l2 : Nat) (p1 : 0 < l1) (p2 : 0 < l2) :
    (openLink E O m h i l1 l2 e).2.1.blacklist.length ≤ h.blacklist.length := by
  let new : BCuckoo α := Table.new (h.slotCells E) l1 l2
  have ready : new.Ready := Table.new_ready _ p1 p2
  have items : ∀ s ∈ h.blacklist ++ [BSlot.single e], (h.slotCells E).free s = false := by
    intro s hs
    rcases List.mem_append.mp hs with hs | hs
    · exact (framed.listed s hs).2
    · exact List.mem_singleton.mp hs ▸ (single_tidy known hd).2
  have fewer := Table.insertAll_lt slotCells_lawful (by norm_num) kicktimes E.rand items (by simp) ready
    (Table.stored_new slotCells_lawful l1 l2) m.rands
  rw [List.length_append, List.length_singleton] at fewer
  rw [openLink_eq ops framed known absent i l1 l2 p1 p2]
  exact Nat.le_of_lt_succ fewer

theorem length_place (bound : h.blacklist.length ≤ bbl) (fits : LinksFit E m h) :
    (place E O m h e).2.1.blacklist.length ≤ bbl := by
  rcases framed.cases with ⟨shape, state⟩ | ⟨t0, shape, state⟩ | ⟨t0, t1, shape, state⟩ |
    ⟨t0, t1, t2, shape, state⟩
  · simp only [place, state, if_true]
    exact (length_place_first ops framed known).trans bound
  · have linked := framed.tower
    rw [shape] at linked
    cases linked with
    | one base =>
        have half := Table.halfOf_new (H := h.slotCells E) t0
        obtain ⟨p1, p2⟩ := Table.ready_new (half.ready base)
        simp only [place, state, shape]
        norm_num only [if_false, if_true]
        split
        · exact (length_openLink ops framed known hd absent 1 _ _ p1 p2).trans bound
        · rename_i room
          simp only [Bool.or_eq_true, not_or, decide_eq_true_eq, not_le] at room
          exact (length_insertInto 0).trans room.2
  · have linked := framed.tower
    rw [shape] at linked
    cases linked with
    | two base half1 =>
        have ready := half1.ready base
        simp only [place, state, shape]
        norm_num
        cases found : h.roomyLink with
        | some it => exact (length_insertInto _).trans (roomyLink_room found)
        | none =>
            exact (length_openLink ops framed known hd absent 2 _ _ (ready true) (ready false)).trans bound
  · simp only [place, state, shape]
    norm_num
    cases found : h.roomyLink with
    | some it => exact (length_insertInto _).trans (roomyLink_room found)
    | none =>
        obtain ⟨merged, -⟩ := merge_moves framed shape m.rands
        have slots := merged.slots
        rw [add_zero, add_zero] at slots
        let r := Table.merge (h.slotCells E) kicktimes E.rand t0 t1 t2 m.rands
        have tower := merged.framed.tower
        cases tower with
        | one base =>
            have half := Table.halfOf_new (H := h.slotCells E) r.table
            obtain ⟨p1, p2⟩ := Table.ready_new (half.ready base)
            have shorter := length_openLink (m := { m with rands := r.draws }) ops merged.framed known hd
              (slots ▸ absent) 1 _ _ p1 p2
            have enough := fits t0 t1 t2 shape found
            refine shorter.trans ?_
            rw [List.length_append]
            exact enough

end

end Holemerge

end CuckooGraph
