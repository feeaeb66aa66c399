import CuckooGraph.Unweighted.Delete

/-! # Contracting the S-CHTs of a bSlot

After a deletion one S-CHT may be freed, halved or poured into the others. All
of this keeps the shape. It keeps the stored destinations as well, except that
pouring one S-CHT into two others goes wrong when an insertion into the first of
them fails.
-/

namespace CuckooGraph

open TwoLayer

section Pour

variable {β : Type} (c0 c1 c2 : Table bup β)

/-- The one of the last two tables that a contraction frees or pours. -/
def smaller : Table bup β := if c2.num > c1.num then c1 else c2

def bigger : Table bup β := if c2.num > c1.num then c2 else c1

/-- Three tables are sparse enough for one of them to be poured into the others. -/
def pours : Prop :=
  (smaller c1 c2).num ≠ 0 ∧ sparse (c0.num + c1.num + c2.num) ((c0.len1 + c0.len2) * bup +
    (c1.len1 + c1.len2) * bup + (c2.len1 + c2.len2) * bup) = true

instance : Decidable (pours c0 c1 c2) := inferInstanceAs (Decidable (_ ∧ _))

end Pour

namespace BSlot

variable {E : Env} {m : Memory Key} {src : Key}

/-- If the deletion of a destination pours an S-CHT, no insertion into `slot[0]`
    fails meanwhile. -/
def PoursClean (E : Env) (m : Memory Key) (slot : Three Addr) : Prop :=
  ∀ a0 c0 a1 c1 a2 c2, m.deref slot.s0 = some (a0, c0) → m.deref slot.s1 = some (a1, c1) →
    m.deref slot.s2 = some (a2, c2) → pours c0 c1 c2 →
    Table.PourClean (chtCells E) kicktimes E.rand hasRoom ((smaller c1 c2).items (chtCells E)) c0
      (bigger c1 c2) m.rands

instance (m : Memory Key) (slot : Three Addr) : Decidable (PoursClean E m slot) :=
  decidable_of_iff (∀ p0 ∈ m.deref slot.s0, ∀ p1 ∈ m.deref slot.s1, ∀ p2 ∈ m.deref slot.s2,
      pours p0.2 p1.2 p2.2 → Table.PourClean (chtCells E) kicktimes E.rand hasRoom
        ((smaller p1.2 p2.2).items (chtCells E)) p0.2 (bigger p1.2 p2.2) m.rands)
    ⟨fun all _ _ _ _ _ _ h0 h1 h2 => all _ h0 _ h1 _ h2, fun all _ h0 _ h1 _ h2 => all _ _ _ _ _ _ h0 h1 h2⟩

/-- What a contraction comes to. -/
structure Shrunk (E : Env) (m : Memory Key) (src : Key) (slot : Three Addr)
    (r : Memory Key × BSlot Key × Int) : Prop where
  turn : SlotTurn E m ⟨src, .chts slot⟩ r.1 r.2.1
  outcome : (r.2.2 = 1 ∧ ∃ slot', r.2.1 = ⟨src, .chts slot'⟩) ∨
    (r.2.2 = -1 ∧ r.2.1 = empty ∧ r.1.own src = [])
  kept : PoursClean E m slot → Distinct (chtItems E m src slot) → CuckooGraph.Numbered E m slot →
    r.2.1.items E r.1 = chtItems E m src slot ∧ r.2.1.Numbered E r.1

/-- The `bSlot` stays, with other S-CHTs. -/
theorem Shrunk.of_turn {m' : Memory Key} {slot slot' : Three Addr} (known : src ≠ 0)
    (turn : Turn E src m slot m' slot')
    (kept : PoursClean E m slot → Distinct (chtItems E m src slot) → CuckooGraph.Numbered E m slot →
      chtItems E m' src slot' = chtItems E m src slot ∧ CuckooGraph.Numbered E m' slot') :
    Shrunk E m src slot (m', ⟨src, .chts slot'⟩, 1) :=
  ⟨.of_turn turn known, .inl ⟨rfl, slot', rfl⟩, kept⟩

theorem Shrunk.stay {slot : Three Addr} (known : src ≠ 0) (rooted : CuckooGraph.Rooted E m slot) :
    Shrunk E m src slot (m, ⟨src, .chts slot⟩, 1) :=
  .of_turn known (.refl rooted) fun _ _ numbered => ⟨rfl, numbered⟩

/-- A table which counts no item has none. -/
theorem stored_eq_zero {c : Cuckoo Key} (counted : c.Counted (chtCells E)) (zero : c.num = 0) :
    c.stored (chtCells E) = 0 := by
  rw [Table.Counted, zero] at counted
  exact Multiset.card_eq_zero.mp (by exact_mod_cast counted.symm)

section One

variable (src)

variable {a0 : Addr} {c0 : Cuckoo Key} (live0 : m.heap.get a0 = some c0)

include live0

/-- The only S-CHT has become empty, but some entries are denylisted. -/
theorem free_only :
    let m' : Memory Key := { m with heap := m.heap.free a0 }
    Turn E src m ⟨some a0, none, none⟩ m' ⟨none, none, none⟩ ∧
      (c0.stored (chtCells E) = 0 →
        chtItems E m' src ⟨none, none, none⟩ = chtItems E m src ⟨some a0, none, none⟩) := by
  intro m'
  refine ⟨⟨.none, fun a c live away => ?_, by simp [Three.toList], fun _ _ => rfl, id, rfl⟩,
    fun vacant => ?_⟩
  · have ne : a ≠ a0 := by simpa [Three.toList] using away
    exact (Heap.get_free_ne ne).trans live
  · rw [chtItems_none, chtItems_one live0, vacant, zero_add]
    rfl

/-- The only S-CHT is halved. -/
theorem compress_only (placed0 : c0.Placed (chtCells E)) (base : c0.Scaled u1 u2)
    (large : minc2 ≤ c0.len2) :
    let r := compressSlot E m src a0 c0
    Turn E src m ⟨some a0, none, none⟩ r.1 ⟨some r.2, none, none⟩ ∧
      (Distinct (chtItems E m src ⟨some a0, none, none⟩) →
        CuckooGraph.Numbered E m ⟨some a0, none, none⟩ →
        chtItems E r.1 src ⟨some r.2, none, none⟩ = chtItems E m src ⟨some a0, none, none⟩ ∧
          CuckooGraph.Numbered E r.1 ⟨some r.2, none, none⟩) := by
  obtain ⟨even1, even2⟩ := base.doubled.even
  have wide := base.le (by norm_num)
  have large2 : 4 ≤ c0.len2 := large
  have settled := Table.compress_settled (H := chtCells E) chtCells_lawful chtCells_scan_lawful
    (by norm_num) kicktimes E.rand (chtCells_agree _) (Table.even_side ⟨even1, even2⟩)
    (base.ready) m.rands
  intro r
  let bulk := Table.compress (chtCells E) kicktimes E.rand c0 m.rands
  let m' : Memory Key := { m with heap := (m.heap.alloc bulk.table).1.free a0, rands := bulk.draws }
  have memory : r.1 = m'.deny src bulk.left := rfl
  have unused : m.heap.get r.2 = none := Heap.get_fresh (b := bulk.table)
  have ne : r.2 ≠ a0 := by
    intro same
    rw [same, live0] at unused
    cases unused
  have live : m'.heap.get r.2 = some bulk.table := (Heap.get_free_ne ne).trans Heap.get_alloc_self
  have scaled := Table.scaled_of_halve base ⟨even1, even2⟩ ⟨large2.trans wide, large2⟩ settled.size
  have turn : Turn E src m ⟨some a0, none, none⟩ (m'.deny src bulk.left) ⟨some r.2, none, none⟩ := by
    refine .of_deny (.one live (settled.placed placed0) scaled) (fun a c before away => ?_)
      (fun a member => ?_) rfl rfl fun x hx => chtCells_free.mp (settled.left x hx).2
    · have other : a ≠ a0 := by simpa [Three.toList] using away
      exact (Heap.get_free_ne other).trans (Heap.get_alloc before)
    · have same : a = r.2 := by simpa [Three.toList] using member
      exact .inr (same ▸ unused)
  refine ⟨turn, fun distinct numbered => ⟨?_, ?_⟩⟩
  · rw [chtItems_one live0] at distinct ⊢
    have stored := settled.stored (distinct.mono (Multiset.le_add_right _ _)).apart
    have own : r.1.own src = m.own src ++ bulk.left := Memory.own_deny _
    rw [chtItems_one (show r.1.heap.get r.2 = some bulk.table from live), own, ← stored,
      ← Multiset.coe_add]
    ac_rfl
  · rw [chtItems_one live0] at distinct
    rw [numbered_one live0] at numbered
    exact (numbered_one (show r.1.heap.get r.2 = some bulk.table from live)).mpr
      (settled.counted (distinct.mono (Multiset.le_add_right _ _)).apart numbered)

/-- The contraction of one S-CHT. -/
theorem one_shrunk (known : src ≠ 0) (rooted : CuckooGraph.Rooted E m ⟨some a0, none, none⟩)
    (placed0 : c0.Placed (chtCells E)) (base : c0.Scaled u1 u2) :
    Shrunk E m src ⟨some a0, none, none⟩
      (contract E m ⟨src, .chts ⟨some a0, none, none⟩⟩ ⟨some a0, none, none⟩ src) := by
  have unfolded : contract E m ⟨src, .chts ⟨some a0, none, none⟩⟩ ⟨some a0, none, none⟩ src =
      if c0.num = 0 then
        if m.sblacklist.any fun d => d.src == src then
          ({ m with heap := m.heap.free a0 }, ⟨src, .chts ⟨none, none, none⟩⟩, 1)
        else ({ m with heap := m.heap.free a0 }, empty, -1)
      else if minc2 ≤ c0.len2 ∧ sparse c0.num ((c0.len1 + c0.len2) * bup) then
        ((compressSlot E m src a0 c0).1, ⟨src, .chts ⟨some (compressSlot E m src a0 c0).2, none, none⟩⟩, 1)
      else (m, ⟨src, .chts ⟨some a0, none, none⟩⟩, 1) := by
    simp [contract, Three.toList, Memory.deref, live0, Three.set]
  obtain ⟨freed, vacated⟩ := free_only (E := E) src live0
  rw [unfolded]
  split
  · rename_i zero
    have stored : CuckooGraph.Numbered E m ⟨some a0, none, none⟩ → c0.stored (chtCells E) = 0 :=
      fun numbered => stored_eq_zero ((numbered_one live0).mp numbered) zero
    split
    · exact .of_turn known freed fun _ _ numbered => ⟨vacated (stored numbered), numbered_none⟩
    · rename_i unlisted
      have own : m.own src = [] := by
        by_contra listed
        exact unlisted (Memory.own_any.mpr listed)
      refine ⟨⟨tidy_empty, trivial, freed.frame, ?_, fun _ _ => rfl, id, rfl⟩, .inr ⟨rfl, rfl, own⟩,
        fun _ _ numbered => ⟨?_, trivial⟩⟩
      · intro a member
        cases member
      · rw [chtItems_one live0, stored numbered, own, zero_add]
        exact filled_replicate _
  · split
    · rename_i large
      obtain ⟨turn, kept⟩ := compress_only (E := E) src live0 placed0 base large.1
      exact .of_turn known turn fun _ => kept
    · exact .stay known rooted

end One

section Two

variable (src)

variable {a0 a1 : Addr} {c0 c1 : Cuckoo Key} (live0 : m.heap.get a0 = some c0)
  (placed0 : c0.Placed (chtCells E)) (live1 : m.heap.get a1 = some c1) (ne01 : a0 ≠ a1)
  (base : c0.Scaled u1 u2)

include live0 placed0 live1 ne01 base

/-- The second S-CHT has become empty. -/
theorem free_second :
    let m' : Memory Key := { m with heap := m.heap.free a1 }
    Turn E src m ⟨some a0, some a1, none⟩ m' ⟨some a0, none, none⟩ ∧
      (c1.stored (chtCells E) = 0 → CuckooGraph.Numbered E m ⟨some a0, some a1, none⟩ →
        chtItems E m' src ⟨some a0, none, none⟩ = chtItems E m src ⟨some a0, some a1, none⟩ ∧
          CuckooGraph.Numbered E m' ⟨some a0, none, none⟩) := by
  intro m'
  have live : m'.heap.get a0 = some c0 := (Heap.get_free_ne ne01).trans live0
  refine ⟨⟨.one live placed0 base, fun a c before away => ?_, fun a member => ?_, fun _ _ => rfl, id,
    rfl⟩, fun vacant numbered => ⟨?_, ?_⟩⟩
  · have ne : a ≠ a1 := by
      simp only [Three.toList, Option.toList_some, Option.toList_none, List.append_nil,
        List.cons_append, List.nil_append, List.mem_cons, List.not_mem_nil, or_false, not_or] at away
      exact away.2
    exact (Heap.get_free_ne ne).trans before
  · have same : a = a0 := by simpa [Three.toList] using member
    exact .inl (by simp [Three.toList, same])
  · rw [chtItems_one live, chtItems_two live0 live1, vacant, add_zero]
    rfl
  · rw [numbered_two live0 live1] at numbered
    exact (numbered_one live).mpr numbered.1

/-- The second S-CHT is poured into the first. -/
theorem pour_second :
    let r := Table.insertAll (chtCells E) kicktimes E.rand (c1.items (chtCells E)) c0 m.rands
    let m' : Memory Key := { m with heap := (m.heap.set a0 r.table).free a1, rands := r.draws }
    Turn E src m ⟨some a0, some a1, none⟩ (m'.deny src r.left) ⟨some a0, none, none⟩ ∧
      (Distinct (chtItems E m src ⟨some a0, some a1, none⟩) →
        CuckooGraph.Numbered E m ⟨some a0, some a1, none⟩ →
        chtItems E (m'.deny src r.left) src ⟨some a0, none, none⟩ =
            chtItems E m src ⟨some a0, some a1, none⟩ ∧
          CuckooGraph.Numbered E (m'.deny src r.left) ⟨some a0, none, none⟩) := by
  intro r m'
  have settled : Table.AllSettled (chtCells E) c0 (c1.items (chtCells E)) r :=
    Table.insertAll_settled chtCells_lawful (by norm_num) kicktimes E.rand
      (fun x hx => (Table.mem_items.mp hx).2) (base.ready) m.rands
  have live : m'.heap.get a0 = some r.table := (Heap.get_free_ne ne01).trans (Heap.get_set_self live0)
  have liveAfter : (m'.deny src r.left).heap.get a0 = some r.table := live
  refine ⟨.of_deny (.one live (settled.placed placed0) (settled.size.scaled base))
    (fun a c before away => ?_) (fun a member => ?_) rfl rfl
    fun x hx => chtCells_free.mp (settled.left x hx).2, fun distinct numbered => ?_⟩
  · simp only [Three.toList, Option.toList_some, Option.toList_none, List.append_nil,
      List.cons_append, List.nil_append, List.mem_cons, List.not_mem_nil, or_false, not_or] at away
    exact (Heap.get_free_ne away.2).trans ((Heap.get_set_ne away.1).trans before)
  · have same : a = a0 := by simpa [Three.toList] using member
    exact .inl (by simp [Three.toList, same])
  · rw [chtItems_two live0 live1] at distinct ⊢
    rw [numbered_two live0 live1] at numbered
    have apart : (chtCells E).Apart (c0.stored (chtCells E) + (c1.items (chtCells E) : Multiset Key)) := by
      rw [Table.coe_items]
      exact (distinct.mono (Multiset.le_add_right _ _)).apart
    have stored : r.table.stored (chtCells E) + ↑r.left = _ := settled.stored apart
    have own : (m'.deny src r.left).own src = m.own src ++ r.left := Memory.own_deny _
    rw [Table.coe_items] at stored
    refine ⟨?_, (numbered_one liveAfter).mpr (settled.counted apart numbered.1)⟩
    rw [chtItems_one liveAfter, own, ← stored, ← Multiset.coe_add]
    ac_rfl

/-- The contraction of two S-CHTs. -/
theorem two_shrunk (known : src ≠ 0) (rooted : CuckooGraph.Rooted E m ⟨some a0, some a1, none⟩) :
    Shrunk E m src ⟨some a0, some a1, none⟩
      (contract E m ⟨src, .chts ⟨some a0, some a1, none⟩⟩ ⟨some a0, some a1, none⟩ src) := by
  have unfolded : contract E m ⟨src, .chts ⟨some a0, some a1, none⟩⟩ ⟨some a0, some a1, none⟩ src =
      if c1.num = 0 then
        ({ m with heap := m.heap.free a1 }, ⟨src, .chts ⟨some a0, none, none⟩⟩, 1)
      else if sparse (c0.num + c1.num)
          ((c0.len1 + c0.len2) * bup + (c1.len1 + c1.len2) * bup) then
        let r := Table.insertAll (chtCells E) kicktimes E.rand (c1.items (chtCells E)) c0 m.rands
        (({ m with heap := (m.heap.set a0 r.table).free a1, rands := r.draws }).deny src r.left,
          ⟨src, .chts ⟨some a0, none, none⟩⟩, 1)
      else (m, ⟨src, .chts ⟨some a0, some a1, none⟩⟩, 1) := by
    simp [contract, Three.toList, Memory.deref, live0, live1, Three.set]
  rw [unfolded]
  split
  · rename_i zero
    obtain ⟨turn, kept⟩ := free_second (E := E) src live0 placed0 live1 ne01 base
    exact .of_turn known turn fun _ _ numbered =>
      kept (stored_eq_zero ((numbered_two live0 live1).mp numbered).2 zero) numbered
  · split
    · obtain ⟨turn, kept⟩ := pour_second (E := E) src live0 placed0 live1 ne01 base
      exact .of_turn known turn fun _ => kept
    · exact .stay known rooted

end Two

section Three

variable {slot : Three Addr} {a0 sm bi : Addr} {c0 csm cbi : Cuckoo Key}
  (rooted : CuckooGraph.Rooted E m slot)
  (mem0 : a0 ∈ slot.toList) (memS : sm ∈ slot.toList) (memB : bi ∈ slot.toList)
  (live0 : m.heap.get a0 = some c0) (liveB : m.heap.get bi = some cbi)
  (ne0S : a0 ≠ sm) (ne0B : a0 ≠ bi) (neSB : sm ≠ bi) (base : c0.Scaled u1 u2) (half : c0.HalfOf cbi)
  (items : chtItems E m src slot =
    c0.stored (chtCells E) + (csm.stored (chtCells E) + cbi.stored (chtCells E)) + ↑(m.own src))
  (numbers : CuckooGraph.Numbered E m slot → c0.Counted (chtCells E) ∧ cbi.Counted (chtCells E))

include rooted mem0 memS memB live0 liveB ne0S ne0B neSB base half items numbers

/-- The smaller one of the last two S-CHTs has become empty. -/
theorem free_smaller :
    let m' : Memory Key := { m with heap := m.heap.free sm }
    Turn E src m slot m' ⟨some a0, some bi, none⟩ ∧
      (csm.stored (chtCells E) = 0 → CuckooGraph.Numbered E m slot →
        chtItems E m' src ⟨some a0, some bi, none⟩ = chtItems E m src slot ∧
          CuckooGraph.Numbered E m' ⟨some a0, some bi, none⟩) := by
  intro m'
  have live0' : m'.heap.get a0 = some c0 := (Heap.get_free_ne ne0S).trans live0
  have liveB' : m'.heap.get bi = some cbi := (Heap.get_free_ne neSB.symm).trans liveB
  refine ⟨⟨.two live0' (rooted.placed mem0 live0) liveB' (rooted.placed memB liveB) ne0B base half,
    fun a c before away => ?_, fun a member => ?_, fun _ _ => rfl, id, rfl⟩,
    fun vacant numbered => ⟨?_, ?_⟩⟩
  · have ne : a ≠ sm := fun same => away (same ▸ memS)
    exact (Heap.get_free_ne ne).trans before
  · have cases : a = a0 ∨ a = bi := by simpa [Three.toList] using member
    rcases cases with rfl | rfl
    · exact .inl mem0
    · exact .inl memB
  · rw [chtItems_two live0' liveB', items, vacant, zero_add]
    rfl
  · exact (numbered_two live0' liveB').mpr (numbers numbered)

/-- The smaller one of the last two S-CHTs is poured into the others. -/
theorem pour_smaller :
    let r := Table.pour (chtCells E) kicktimes E.rand hasRoom (csm.items (chtCells E)) c0 cbi m.rands
    let m' : Memory Key :=
      { m with heap := ((m.heap.set a0 r.base).set bi r.other).free sm, rands := r.draws }
    Turn E src m slot (m'.deny src r.left) ⟨some a0, some bi, none⟩ ∧
      (Table.PourClean (chtCells E) kicktimes E.rand hasRoom (csm.items (chtCells E)) c0 cbi m.rands →
        Distinct (chtItems E m src slot) → CuckooGraph.Numbered E m slot →
        chtItems E (m'.deny src r.left) src ⟨some a0, some bi, none⟩ = chtItems E m src slot ∧
          CuckooGraph.Numbered E (m'.deny src r.left) ⟨some a0, some bi, none⟩) := by
  intro r m'
  have ready := base.ready
  have occupied : ∀ x ∈ csm.items (chtCells E), (chtCells E).free x = false :=
    fun x hx => (Table.mem_items.mp hx).2
  have settled : Table.PourSettled (chtCells E) c0 cbi (csm.items (chtCells E)) r :=
    Table.pour_settled chtCells_lawful (by norm_num) kicktimes E.rand occupied ready (half.ready base)
      m.rands
  have live0' : m'.heap.get a0 = some r.base :=
    (Heap.get_free_ne ne0S).trans ((Heap.get_set_ne ne0B).trans (Heap.get_set_self live0))
  have liveB' : m'.heap.get bi = some r.other :=
    (Heap.get_free_ne neSB.symm).trans (Heap.get_set_self ((Heap.get_set_ne ne0B.symm).trans liveB))
  refine ⟨.of_deny (.two live0' (settled.toBase.placed (rooted.placed mem0 live0)) liveB'
    (settled.toOther.placed (rooted.placed memB liveB)) ne0B (settled.toBase.size.scaled base)
    (settled.toBase.size.halfOf settled.toOther.size half)) (fun a c before away => ?_)
    (fun a member => ?_) rfl rfl fun x hx => chtCells_free.mp (settled.left x hx).2,
    fun clean distinct numbered => ?_⟩
  · have neS : a ≠ sm := fun same => away (same ▸ memS)
    have ne0 : a ≠ a0 := fun same => away (same ▸ mem0)
    have neB : a ≠ bi := fun same => away (same ▸ memB)
    exact (Heap.get_free_ne neS).trans ((Heap.get_set_ne neB).trans ((Heap.get_set_ne ne0).trans before))
  · have cases : a = a0 ∨ a = bi := by simpa [Three.toList] using member
    rcases cases with rfl | rfl
    · exact .inl mem0
    · exact .inl memB
  · rw [items] at distinct
    have regroup : c0.stored (chtCells E) + cbi.stored (chtCells E) +
        (csm.items (chtCells E) : Multiset Key) =
        c0.stored (chtCells E) + (csm.stored (chtCells E) + cbi.stored (chtCells E)) := by
      rw [Table.coe_items]
      ac_rfl
    have apart : (chtCells E).Apart (c0.stored (chtCells E) + cbi.stored (chtCells E) +
        (csm.items (chtCells E) : Multiset Key)) := by
      rw [regroup]
      exact (distinct.mono (Multiset.le_add_right _ _)).apart
    obtain ⟨stored, counted0, countedB⟩ := Table.pour_stored chtCells_lawful (by norm_num) kicktimes
      E.rand occupied ready (half.ready base) clean apart
    obtain ⟨number0, numberB⟩ := numbers numbered
    have own : (m'.deny src r.left).own src = m.own src ++ r.left := Memory.own_deny _
    refine ⟨?_, (numbered_two live0' liveB').mpr ⟨counted0 number0, countedB numberB⟩⟩
    calc chtItems E (m'.deny src r.left) src ⟨some a0, some bi, none⟩
        = (r.base.stored (chtCells E) + r.other.stored (chtCells E) + ↑r.left) + ↑(m.own src) := by
          rw [chtItems_two (show (m'.deny src r.left).heap.get a0 = some r.base from live0')
            (show (m'.deny src r.left).heap.get bi = some r.other from liveB'), own,
            ← Multiset.coe_add]
          ac_rfl
      _ = _ := by rw [stored, regroup, items]

/-- The contraction of three S-CHTs, whichever of the last two is the smaller one. -/
theorem three_shrunk {few : Bool} (known : src ≠ 0)
    (counted : CuckooGraph.Numbered E m slot → csm.Counted (chtCells E))
    (clean : PoursClean E m slot → csm.num ≠ 0 → few = true →
      Table.PourClean (chtCells E) kicktimes E.rand hasRoom (csm.items (chtCells E)) c0 cbi m.rands) :
    Shrunk E m src slot
      (if csm.num = 0 then
        ({ m with heap := m.heap.free sm }, ⟨src, .chts ⟨some a0, some bi, none⟩⟩, 1)
      else if few then
        let r := Table.pour (chtCells E) kicktimes E.rand hasRoom (csm.items (chtCells E)) c0 cbi m.rands
        (({ m with heap := ((m.heap.set a0 r.base).set bi r.other).free sm,
                   rands := r.draws }).deny src r.left, ⟨src, .chts ⟨some a0, some bi, none⟩⟩, 1)
      else (m, ⟨src, .chts slot⟩, 1)) := by
  split
  · rename_i zero
    obtain ⟨turn, kept⟩ := free_smaller rooted mem0 memS memB live0 liveB ne0S ne0B neSB base half items
      numbers
    exact .of_turn known turn fun _ _ numbered => kept (stored_eq_zero (counted numbered) zero) numbered
  · rename_i nonzero
    split
    · rename_i sparse
      obtain ⟨turn, kept⟩ := pour_smaller rooted mem0 memS memB live0 liveB ne0S ne0B neSB base half
        items numbers
      exact .of_turn known turn fun poured => kept (clean poured nonzero sparse)
    · exact .stay known rooted

end Three

/-- The contraction of `bSlot::del`, by the number of S-CHTs. -/
theorem contract_shrunk {slot : Three Addr} (known : src ≠ 0) (rooted : CuckooGraph.Rooted E m slot) :
    Shrunk E m src slot (contract E m ⟨src, .chts slot⟩ slot src) := by
  rcases rooted.cases with rfl | ⟨a0, c0, rfl, live0, placed0, base⟩ |
    ⟨a0, c0, a1, c1, rfl, live0, placed0, live1, placed1, ne01, base, half1⟩ |
    ⟨a0, c0, a1, c1, a2, c2, rfl, live0, placed0, live1, placed1, live2, placed2, ne01, ne02, ne12,
      base, half1, half2⟩
  · exact .stay known rooted
  · exact one_shrunk src live0 known rooted placed0 base
  · exact two_shrunk src live0 placed0 live1 ne01 base known rooted
  · have numbers := numbered_three (E := E) live0 live1 live2
    have items : chtItems E m src ⟨some a0, some a1, some a2⟩ = c0.stored (chtCells E) +
        (c1.stored (chtCells E) + c2.stored (chtCells E)) + ↑(m.own src) :=
      chtItems_three live0 live1 live2
    have deref : ∀ a c, m.heap.get a = some c → m.deref (some a) = some (a, c) := fun a c live => by
      simp [Memory.deref, live]
    have mem0 : a0 ∈ (⟨some a0, some a1, some a2⟩ : Three Addr).toList := by simp [Three.toList]
    have mem1 : a1 ∈ (⟨some a0, some a1, some a2⟩ : Three Addr).toList := by simp [Three.toList]
    have mem2 : a2 ∈ (⟨some a0, some a1, some a2⟩ : Three Addr).toList := by simp [Three.toList]
    by_cases order : c2.num > c1.num
    · simp only [contract, Three.toList, Option.toList_some, List.cons_append, List.nil_append,
        List.length_cons, List.length_nil, deref a0 c0 live0, deref a1 c1 live1, deref a2 c2 live2,
        if_pos order]
      refine three_shrunk rooted mem0 mem1 mem2 live0 live2 ne01 ne02 ne12 base half2 items
        (fun numbered => ⟨(numbers.mp numbered).1, (numbers.mp numbered).2.2⟩) known
        (fun numbered => (numbers.mp numbered).2.1) fun poured nonzero few => ?_
      have clean := poured a0 c0 a1 c1 a2 c2 (deref a0 c0 live0) (deref a1 c1 live1) (deref a2 c2 live2)
      simp only [pours, smaller, bigger, if_pos order] at clean
      exact clean ⟨nonzero, few⟩
    · simp only [contract, Three.toList, Option.toList_some, List.cons_append, List.nil_append,
        List.length_cons, List.length_nil, deref a0 c0 live0, deref a1 c1 live1, deref a2 c2 live2,
        if_neg order]
      refine three_shrunk rooted mem0 mem2 mem1 live0 live1 ne02 ne01 ne12.symm base half1
        (items.trans (by ac_rfl))
        (fun numbered => ⟨(numbers.mp numbered).1, (numbers.mp numbered).2.1⟩) known
        (fun numbered => (numbers.mp numbered).2.2) fun poured nonzero few => ?_
      have clean := poured a0 c0 a1 c1 a2 c2 (deref a0 c0 live0) (deref a1 c1 live1) (deref a2 c2 live2)
      simp only [pours, smaller, bigger, if_neg order] at clean
      exact clean ⟨nonzero, few⟩

end BSlot

end CuckooGraph
