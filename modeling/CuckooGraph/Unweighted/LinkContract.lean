import CuckooGraph.Unweighted.SlotDel

/-! # Contracting the links

The links are contracted as the S-CHTs of a `bSlot` are, with the same flaw in
pouring one of them into two others. A link which counts no `bSlot` is freed
without a look at its cells, so nothing is lost as long as the counts are right.
-/

namespace CuckooGraph

open TwoLayer

namespace Holemerge

variable {E : Env} {m : Memory Key} {h : Holemerge Key}

/-- If the contraction pours a link, no insertion into `link[0]` fails meanwhile. -/
def PoursClean (E : Env) (m : Memory Key) (h : Holemerge Key) : Prop :=
  ∀ c0 c1 c2, h.link = ⟨some c0, some c1, some c2⟩ → pours c0 c1 c2 →
    Table.PourClean (h.slotCells E) kicktimes E.rand hasRoom ((smaller c1 c2).items (h.slotCells E)) c0
      (bigger c1 c2) m.rands

instance : Decidable (PoursClean E m h) :=
  decidable_of_iff (∀ c0 ∈ h.link.s0, ∀ c1 ∈ h.link.s1, ∀ c2 ∈ h.link.s2, pours c0 c1 c2 →
      Table.PourClean (h.slotCells E) kicktimes E.rand hasRoom ((smaller c1 c2).items (h.slotCells E)) c0
        (bigger c1 c2) m.rands)
    ⟨fun all c0 c1 c2 three => all c0 (by rw [three]; rfl) c1 (by rw [three]; rfl) c2 (by rw [three]; rfl),
      fun all c0 h0 c1 h1 c2 h2 => all c0 c1 c2 (Three.of_parts h0 h1 h2)⟩

/-- A table is large and sparse enough to be halved. -/
def halves (c0 : BCuckoo Key) : Prop :=
  c0.num ≠ 0 ∧ bminc2 ≤ c0.len2 ∧ sparse c0.num ((c0.len1 + c0.len2) * bup) = true

instance (c0 : BCuckoo Key) : Decidable (halves c0) := inferInstanceAs (Decidable (_ ∧ _ ∧ _))

/-- If the contraction halves a link, the layers of this are of even length. -/
def HalvesEven (h : Holemerge Key) : Prop :=
  ∀ c0, h.link = ⟨some c0, none, none⟩ → halves c0 → 2 ∣ c0.len1 ∧ 2 ∣ c0.len2

instance : Decidable (HalvesEven h) :=
  decidable_of_iff (∀ c0 ∈ h.link.s0, h.link.s1 = none ∧ h.link.s2 = none → halves c0 → 2 ∣ c0.len1 ∧ 2 ∣ c0.len2)
    ⟨fun all c0 one => all c0 (by rw [one]; rfl) (by rw [one]; exact ⟨rfl, rfl⟩),
      fun all c0 h0 ⟨h1, h2⟩ => all c0 (Three.of_parts h0 h1 h2)⟩

/-- What a contraction of the links comes to. -/
structure Contracted (E : Env) (m : Memory Key) (h : Holemerge Key)
    (r : Memory Key × Holemerge Key) : Prop where
  memory : ∃ n, r.1 = { m with rands := n }
  framed : r.2.Framed E
  le : PoursClean E m h → r.2.slots E ≤ h.slots E
  kept : PoursClean E m h → h.Tallied E → r.2.slots E = h.slots E ∧ r.2.Tallied E

theorem Contracted.stay (framed : h.Framed E) : Contracted E m h (m, h) :=
  ⟨⟨m.rands, rfl⟩, framed, fun _ => le_refl _, fun _ tallied => ⟨rfl, tallied⟩⟩

/-- A contraction which loses no `bSlot`. -/
theorem Contracted.of_eq {n : Nat} {h' : Holemerge Key} (framed : h'.Framed E)
    (same : PoursClean E m h → h'.slots E = h.slots E)
    (tallies : PoursClean E m h → h.Tallied E → h'.Tallied E) :
    Contracted E m h ({ m with rands := n }, h') :=
  ⟨⟨n, rfl⟩, framed, fun clean => (same clean).le, fun clean tallied => ⟨same clean, tallies clean tallied⟩⟩

theorem link_eq_zero {t : BCuckoo Key} (counted : t.Counted (h.slotCells E)) (zero : t.num = 0) :
    t.stored (h.slotCells E) = 0 := by
  rw [Table.Counted, zero] at counted
  exact Multiset.card_eq_zero.mp (by exact_mod_cast counted.symm)

/-- A link is freed which counts no `bSlot`. -/
theorem Contracted.freed {t : BCuckoo Key} {h' : Holemerge Key} (framed : h'.Framed E) (zero : t.num = 0)
    (before : h.slots E = h'.slots E + t.stored (h.slotCells E))
    (tally : h.Tallied E → t.Counted (h.slotCells E) ∧ h'.Tallied E) : Contracted E m h (m, h') := by
  refine ⟨⟨m.rands, rfl⟩, framed, fun _ => ?_, fun _ tallied => ⟨?_, (tally tallied).2⟩⟩
  · rw [before]
    exact Multiset.le_add_right _ _
  · rw [before, link_eq_zero (tally tallied).1 zero, add_zero]

section Cases

variable (framed : h.Framed E)

include framed

theorem contract_one {c0 : BCuckoo Key} (shape : h.link = ⟨some c0, none, none⟩) (state : h.state = 0)
    (even : HalvesEven h) : Contracted E m h (contract E m h) := by
  have tower := framed.tower
  have placed := framed.placed
  have tidy := framed.tidy
  rw [shape] at tower placed tidy
  rw [Three.forall_one] at placed tidy
  have base : c0.Scaled h.ll1 h.ll2 := by
    cases tower with
    | one base => exact base
  have before : h.slots E = c0.stored (h.slotCells E) + ↑h.blacklist := by
    rw [slots, shape, Three.stored_one]
  have tally : h.Tallied E → c0.Counted (h.slotCells E) := fun tallied =>
    Three.forall_one.mp (shape ▸ tallied)
  simp only [contract, state, if_true, shape]
  split
  · rename_i zero
    let h' : Holemerge Key := { h with link := ⟨none, none, none⟩, state := -1 }
    have after : h'.slots E = ↑h.blacklist := zero_add _
    change Contracted E m h (m, h')
    refine .freed ⟨framed.sizes, rfl, .none, by simp [h', Three.toList], by simp [h', Three.toList],
      framed.listed⟩ zero ?_ fun tallied => ⟨tally tallied, by simp [h', Tallied, Three.toList]⟩
    rw [after, before, add_comm]
  · rename_i nonzero
    split
    · rename_i large
      have exactly := even c0 shape ⟨nonzero, large.1, large.2⟩
      have wide : 4 ≤ c0.len1 ∧ 4 ≤ c0.len2 := ⟨large.1.trans (base.le framed.sizes.2), large.1⟩
      have settled := Table.compress_settled (H := h.slotCells E) slotCells_lawful
        slotCells_scan_lawful (by norm_num) kicktimes E.rand (slotCells_agree tidy) (Table.even_side exactly)
        (base.ready) m.rands
      generalize Table.compress (h.slotCells E) kicktimes E.rand c0 m.rands = r at settled
      let h' : Holemerge Key :=
        { h with state := 0, link := ⟨some r.table, none, none⟩, blacklist := h.blacklist ++ r.left }
      change Contracted E m h ({ m with rands := r.draws }, h')
      refine .of_eq ⟨framed.sizes, by simp [h', Three.toList],
        .one (Table.scaled_of_halve base exactly wide settled.size), Three.forall_one.mpr (settled.placed placed),
        Three.forall_one.mpr fun s hs => tidy s (settled.cells s hs),
        framed.listed_append fun s hs => ⟨tidy s (settled.left s hs).1, (settled.left s hs).2⟩⟩ (fun _ => ?_)
        fun _ tallied => ?_
      · have stored := settled.stored (slotCells_apart _)
        rw [before, ← stored]
        change Three.stored (h.slotCells E) ⟨some r.table, none, none⟩ + ↑(h.blacklist ++ r.left) = _
        rw [Three.stored_one, ← Multiset.coe_add]
        ac_rfl
      · exact Three.forall_one.mpr (settled.counted (slotCells_apart _) (tally tallied))
    · exact .stay framed

theorem contract_two {c0 c1 : BCuckoo Key} (shape : h.link = ⟨some c0, some c1, none⟩)
    (state : h.state = 1) : Contracted E m h (contract E m h) := by
  have tower := framed.tower
  have placed := framed.placed
  have tidy := framed.tidy
  rw [shape] at tower placed tidy
  rw [Three.forall_two] at placed tidy
  have base : c0.Scaled h.ll1 h.ll2 := by
    cases tower with
    | two base _ => exact base
  have before : h.slots E = c0.stored (h.slotCells E) + c1.stored (h.slotCells E) + ↑h.blacklist := by
    rw [slots, shape, Three.stored_two]
  have tally : h.Tallied E → c0.Counted (h.slotCells E) ∧ c1.Counted (h.slotCells E) := fun tallied =>
    Three.forall_two.mp (shape ▸ tallied)
  simp only [contract, state, shape]
  norm_num only [if_false, if_true]
  split
  · rename_i zero
    let h' : Holemerge Key := { h with link := ⟨some c0, none, none⟩, state := 0 }
    have after : h'.slots E = c0.stored (h.slotCells E) + ↑h.blacklist := by
      change Three.stored (h.slotCells E) ⟨some c0, none, none⟩ + _ = _
      rw [Three.stored_one]
    change Contracted E m h (m, h')
    refine .freed ⟨framed.sizes, by simp [h', Three.toList], .one base, Three.forall_one.mpr placed.1,
      Three.forall_one.mpr tidy.1, framed.listed⟩ zero ?_ fun tallied =>
        ⟨(tally tallied).2, Three.forall_one.mpr (tally tallied).1⟩
    rw [after, before, add_right_comm]
  · split
    · have settled : Table.AllSettled (h.slotCells E) c0 (c1.items (h.slotCells E))
          (Table.insertAll (h.slotCells E) kicktimes E.rand (c1.items (h.slotCells E)) c0 m.rands) :=
        Table.insertAll_settled slotCells_lawful (by norm_num) kicktimes E.rand
          (fun s hs => (Table.mem_items.mp hs).2) (base.ready) m.rands
      generalize Table.insertAll (h.slotCells E) kicktimes E.rand (c1.items (h.slotCells E)) c0 m.rands
        = r at settled
      have origin : ∀ s, s ∈ c0.cells ∨ s ∈ c1.items (h.slotCells E) → s.Tidy := by
        rintro s (hs | hs)
        · exact tidy.1 s hs
        · exact tidy.2 s (Table.mem_items.mp hs).1
      let h' : Holemerge Key :=
        { h with link := ⟨some r.table, none, none⟩, state := 0, blacklist := h.blacklist ++ r.left }
      change Contracted E m h ({ m with rands := r.draws }, h')
      refine .of_eq ⟨framed.sizes, by simp [h', Three.toList], .one (settled.size.scaled base),
        Three.forall_one.mpr (settled.placed placed.1),
        Three.forall_one.mpr fun s hs => origin s (settled.cells s hs),
        framed.listed_append fun s hs => ⟨origin s (settled.left s hs).1, (settled.left s hs).2⟩⟩ (fun _ => ?_)
        fun _ tallied => ?_
      · have stored := settled.stored (slotCells_apart _)
        rw [Table.coe_items] at stored
        rw [before, ← stored]
        change Three.stored (h.slotCells E) ⟨some r.table, none, none⟩ + ↑(h.blacklist ++ r.left) = _
        rw [Three.stored_one, ← Multiset.coe_add]
        ac_rfl
      · exact Three.forall_one.mpr (settled.counted (slotCells_apart _) (tally tallied).1)
    · exact .stay framed

/-- Three links, `csm` being the smaller and `cbi` the bigger one of the last two. -/
theorem three_contracted {c0 csm cbi : BCuckoo Key} {few : Bool} (base : c0.Scaled h.ll1 h.ll2)
    (half : c0.HalfOf cbi)
    (placed : c0.Placed (h.slotCells E) ∧ cbi.Placed (h.slotCells E))
    (tidy : (∀ s ∈ c0.cells, s.Tidy) ∧ (∀ s ∈ csm.cells, s.Tidy) ∧ ∀ s ∈ cbi.cells, s.Tidy)
    (before : h.slots E = c0.stored (h.slotCells E) + cbi.stored (h.slotCells E) +
      csm.stored (h.slotCells E) + ↑h.blacklist)
    (tally : h.Tallied E → c0.Counted (h.slotCells E) ∧ csm.Counted (h.slotCells E) ∧
      cbi.Counted (h.slotCells E))
    (clean : PoursClean E m h → csm.num ≠ 0 → few = true →
      Table.PourClean (h.slotCells E) kicktimes E.rand hasRoom (csm.items (h.slotCells E)) c0 cbi
        m.rands) :
    Contracted E m h
      (if csm.num = 0 then (m, { h with link := ⟨some c0, some cbi, none⟩, state := 1 })
      else if few then
        let r := Table.pour (h.slotCells E) kicktimes E.rand hasRoom (csm.items (h.slotCells E)) c0 cbi
          m.rands
        ({ m with rands := r.draws },
          { h with link := ⟨some r.base, some r.other, none⟩, state := 1,
                   blacklist := h.blacklist ++ r.left })
      else (m, h)) := by
  split
  · rename_i zero
    let h' : Holemerge Key := { h with link := ⟨some c0, some cbi, none⟩, state := 1 }
    have after : h'.slots E =
        c0.stored (h.slotCells E) + cbi.stored (h.slotCells E) + ↑h.blacklist := by
      change Three.stored (h.slotCells E) ⟨some c0, some cbi, none⟩ + _ = _
      rw [Three.stored_two]
    change Contracted E m h (m, h')
    refine .freed ⟨framed.sizes, by simp [h', Three.toList], .two base half, Three.forall_two.mpr placed,
      Three.forall_two.mpr ⟨tidy.1, tidy.2.2⟩, framed.listed⟩ zero ?_ fun tallied =>
        ⟨(tally tallied).2.1, Three.forall_two.mpr ⟨(tally tallied).1, (tally tallied).2.2⟩⟩
    rw [after, before, add_right_comm]
  · rename_i nonzero
    split
    · rename_i sparse
      have ready := base.ready
      have occupied : ∀ s ∈ csm.items (h.slotCells E), (h.slotCells E).free s = false :=
        fun s hs => (Table.mem_items.mp hs).2
      have settled : Table.PourSettled (h.slotCells E) c0 cbi (csm.items (h.slotCells E))
          (Table.pour (h.slotCells E) kicktimes E.rand hasRoom (csm.items (h.slotCells E)) c0 cbi
            m.rands) :=
        Table.pour_settled slotCells_lawful (by norm_num) kicktimes E.rand occupied ready
          (half.ready base) m.rands
      have kept := fun poured => Table.pour_stored (H := h.slotCells E) slotCells_lawful
        (by norm_num) kicktimes E.rand occupied ready (half.ready base) (clean poured nonzero sparse)
        (slotCells_apart _)
      dsimp only at kept
      generalize Table.pour (h.slotCells E) kicktimes E.rand hasRoom (csm.items (h.slotCells E)) c0 cbi
        m.rands = r at settled kept
      have inside : ∀ s ∈ csm.items (h.slotCells E), s.Tidy := fun s hs =>
        tidy.2.1 s (Table.mem_items.mp hs).1
      let h' : Holemerge Key := { h with link := ⟨some r.base, some r.other, none⟩, state := 1,
                                         blacklist := h.blacklist ++ r.left }
      change Contracted E m h ({ m with rands := r.draws }, h')
      refine .of_eq ⟨framed.sizes, by simp [h', Three.toList],
        .two (settled.toBase.size.scaled base) (settled.toBase.size.halfOf settled.toOther.size half),
        Three.forall_two.mpr ⟨settled.toBase.placed placed.1, settled.toOther.placed placed.2⟩,
        Three.forall_two.mpr ⟨fun s hs => ?_, fun s hs => ?_⟩, framed.listed_append fun s hs => ?_⟩
        (fun poured => ?_) fun poured tallied => ?_
      · exact (settled.toBase.cells s hs).elim (tidy.1 s) (inside s)
      · exact (settled.toOther.cells s hs).elim (tidy.2.2 s) (inside s)
      · exact ⟨(settled.left s hs).1.elim (tidy.2.2 s) (inside s), (settled.left s hs).2⟩
      · have stored := (kept poured).1
        rw [Table.coe_items] at stored
        rw [before, ← stored]
        change Three.stored (h.slotCells E) ⟨some r.base, some r.other, none⟩ +
          ↑(h.blacklist ++ r.left) = _
        rw [Three.stored_two, ← Multiset.coe_add]
        ac_rfl
      · exact Three.forall_two.mpr
          ⟨(kept poured).2.1 (tally tallied).1, (kept poured).2.2 (tally tallied).2.2⟩
    · exact .stay framed

end Cases

/-- The contraction of `main_del`, by the number of links. -/
theorem contract_contracted (framed : h.Framed E) (even : HalvesEven h) :
    Contracted E m h (contract E m h) := by
  rcases framed.cases with ⟨shape, state⟩ | ⟨t0, shape, state⟩ | ⟨t0, t1, shape, state⟩ |
    ⟨t0, t1, t2, shape, state⟩
  · simpa [contract, state] using Contracted.stay (m := m) framed
  · exact contract_one framed shape state even
  · exact contract_two framed shape state
  · have tower := framed.tower
    have placed := framed.placed
    have tidy := framed.tidy
    rw [shape] at tower placed tidy
    rw [Three.forall_three] at placed tidy
    have before : h.slots E = t0.stored (h.slotCells E) +
        (t1.stored (h.slotCells E) + t2.stored (h.slotCells E)) + ↑h.blacklist := by
      rw [slots, shape, Three.stored_three]
    have tally : h.Tallied E → t0.Counted (h.slotCells E) ∧ t1.Counted (h.slotCells E) ∧
        t2.Counted (h.slotCells E) := fun tallied => Three.forall_three.mp (shape ▸ tallied)
    cases tower with
    | three base half1 half2 =>
        simp only [contract, state, shape]
        norm_num only [if_false, if_true]
        by_cases order : t2.num > t1.num
        · simp only [if_pos order]
          refine three_contracted framed base half2 ⟨placed.1, placed.2.2⟩ tidy
            (before.trans (by ac_rfl)) tally fun poured nonzero few => ?_
          have clean := poured t0 t1 t2 shape
          simp only [pours, smaller, bigger, if_pos order] at clean
          exact clean ⟨nonzero, few⟩
        · simp only [if_neg order]
          refine three_contracted framed base half1 ⟨placed.1, placed.2.1⟩ ⟨tidy.1, tidy.2.2, tidy.2.1⟩
            (before.trans (by ac_rfl)) (fun tallied => ⟨(tally tallied).1, (tally tallied).2.2,
              (tally tallied).2.1⟩) fun poured nonzero few => ?_
          have clean := poured t0 t1 t2 shape
          simp only [pours, smaller, bigger, if_neg order] at clean
          exact clean ⟨nonzero, few⟩

end Holemerge

end CuckooGraph
