import CuckooGraph.Slot.Write

/-! # Inserting into the S-CHTs of a bSlot

Each way in which `bSlot::insert` makes room is a `Turn`, and it stores the new
destination without losing another one, as long as no destination is stored
twice.
-/

namespace CuckooGraph

open TwoLayer

variable {α : Type} [Entry α] {E : Env}

/-- Afterwards the source stores `e` in addition. -/
structure Gains (E : Env) (src : Key) (m : Memory α) (slot : Three Addr) (m' : Memory α)
    (slot' : Three Addr) (e : Multiset α) : Prop where
  items : chtItems E m' src slot' = chtItems E m src slot + e
  numbered : Numbered E m slot → Numbered E m' slot'

theorem Gains.trans {src : Key} {m m' m'' : Memory α} {slot slot' slot'' : Three Addr}
    {e e' : Multiset α} (h : Gains E src m slot m' slot' e) (h' : Gains E src m' slot' m'' slot'' e') :
    Gains E src m slot m'' slot'' (e + e') :=
  ⟨by rw [h'.items, h.items, add_assoc], fun before => h'.numbered (h.numbered before)⟩

/-- What `openTable` comes to: a table `c` at a new address. -/
structure Opened (E : Env) (m : Memory α) (src : Key) (l1 l2 : Nat) (e : α) (c : Cuckoo α)
    (r : Memory α × Addr) : Prop where
  heap : r.1.heap = (m.heap.alloc c).1
  addr : r.2 = (m.heap.alloc c).2
  size : Table.SameSize (Table.new (chtCells E) l1 l2) c
  placed : c.Placed (chtCells E)
  others : ∀ s, s ≠ src → r.1.own s = m.own s
  owned : ∀ x ∈ r.1.own src, Entry.dst x ≠ 0
  fault : r.1.fault = m.fault
  stored : Distinct (e ::ₘ ↑(m.own src)) → c.stored (chtCells E) + ↑(r.1.own src) = e ::ₘ ↑(m.own src)
  counted : Distinct (e ::ₘ ↑(m.own src)) → c.Counted (chtCells E)

namespace Opened

variable {m : Memory α} {src : Key} {l1 l2 : Nat} {e : α} {c : Cuckoo α} {r : Memory α × Addr}
  (h : Opened E m src l1 l2 e c r) {a : Addr} {b : Cuckoo α}

include h

theorem live : r.1.heap.get r.2 = some c := by
  rw [h.heap, h.addr]
  exact Heap.get_alloc_self

theorem unused : m.heap.get r.2 = none := by
  rw [h.addr]
  exact Heap.get_fresh

theorem keeps (before : m.heap.get a = some b) : r.1.heap.get a = some b := by
  rw [h.heap]
  exact Heap.get_alloc before

theorem ne (before : m.heap.get a = some b) : a ≠ r.2 := by
  rw [h.addr]
  exact Heap.alloc_ne before

end Opened

section Open

variable {m : Memory α} {src : Key} {e : α}

/-- The new table takes the denylisted entries and `e` in one series. -/
theorem openTable_eq (E : Env) (m : Memory α) (src : Key) (l1 l2 : Nat) (e : α) :
    openTable E m src l1 l2 e =
      let r := Table.insertAll (chtCells E) kicktimes E.rand (m.own src ++ [e])
        (Table.new (chtCells E) l1 l2) m.rands
      (({ heap := (m.heap.alloc r.table).1, sblacklist := m.sblacklist.filter fun d => !(d.src == src),
          rands := r.draws, fault := m.fault } : Memory α).deny src r.left,
        (m.heap.alloc r.table).2) := by
  rw [Table.insertAll_append_singleton]
  rfl

variable [LawfulEntry α]

theorem openTable_opened (l1 l2 : Nat) (p1 : 0 < l1) (p2 : 0 < l2)
    (owned : ∀ x ∈ m.own src, Entry.dst x ≠ 0) (he : Entry.dst e ≠ 0) :
    ∃ c, Opened E m src l1 l2 e c (openTable E m src l1 l2 e) := by
  let new : Cuckoo α := Table.new (chtCells E) l1 l2
  let r := Table.insertAll (chtCells E) kicktimes E.rand (m.own src ++ [e]) new m.rands
  have ready : new.Ready := Table.new_ready _ p1 p2
  have items : ∀ x ∈ m.own src ++ [e], (chtCells E).free x = false := by
    intro x hx
    rw [chtCells_free]
    rcases List.mem_append.mp hx with hx | hx
    · exact owned x hx
    · exact List.mem_singleton.mp hx ▸ he
  have settled : Table.AllSettled (chtCells E) new (m.own src ++ [e]) r :=
    Table.insertAll_settled chtCells_lawful (by norm_num) kicktimes E.rand items ready m.rands
  have vacant : new.stored (chtCells E) = 0 := Table.stored_new chtCells_lawful l1 l2
  have regroup : new.stored (chtCells E) + ↑(m.own src ++ [e]) = e ::ₘ ↑(m.own src) := by
    rw [vacant, zero_add, ← Multiset.coe_add, Multiset.coe_singleton, add_comm,
      Multiset.singleton_add]
  let drained : Memory α := ⟨(m.heap.alloc r.table).1, m.sblacklist.filter fun d => !(d.src == src),
    r.draws, m.fault⟩
  have ⟨vanished, kept⟩ : drained.own src = [] ∧ ∀ s, s ≠ src → drained.own s = m.own s :=
    Memory.own_drain rfl
  have ownSelf : (drained.deny src r.left).own src = r.left := by rw [Memory.own_deny, vanished]; rfl
  refine ⟨r.table, ?_⟩
  rw [openTable_eq]
  refine ⟨rfl, rfl, settled.size, settled.placed (Table.placed_new chtCells_lawful l1 l2),
    fun s other => (Memory.own_deny_ne other _).trans (kept s other), ?_, rfl,
    fun distinct => ?_, fun distinct => ?_⟩
  · intro x hx
    exact chtCells_free.mp (settled.left x (ownSelf ▸ hx)).2
  · have stored := settled.stored (regroup ▸ distinct.apart)
    rw [regroup] at stored
    exact (congrArg (r.table.stored (chtCells E) + ↑·) ownSelf).trans stored
  · exact settled.counted (regroup ▸ distinct.apart) (Table.counted_new chtCells_lawful l1 l2)

/-- A second table, half as large as the first. -/
theorem openTable_second {a0 : Addr} {c0 : Cuckoo α} (live0 : m.heap.get a0 = some c0)
    (placed0 : c0.Placed (chtCells E)) (base : c0.Scaled u1 u2)
    (owned : ∀ x ∈ m.own src, Entry.dst x ≠ 0) (he : Entry.dst e ≠ 0) :
    let r := openTable E m src (c0.len1 / 2) (c0.len2 / 2) e
    Turn E src m ⟨some a0, none, none⟩ r.1 ⟨some a0, some r.2, none⟩ ∧
      (Distinct (chtItems E m src ⟨some a0, none, none⟩ + {e}) →
        Gains E src m ⟨some a0, none, none⟩ r.1 ⟨some a0, some r.2, none⟩ {e}) := by
  have half := Table.halfOf_new (H := chtCells E) c0
  obtain ⟨p1, p2⟩ := Table.ready_new (half.ready base)
  obtain ⟨c, opened⟩ := openTable_opened (E := E) _ _ p1 p2 owned he
  intro r
  have live0' : r.1.heap.get a0 = some c0 := opened.keeps live0
  have live1' : r.1.heap.get r.2 = some c := opened.live
  have ne : a0 ≠ r.2 := opened.ne live0
  refine ⟨⟨.two live0' placed0 live1' opened.placed ne base ((Table.SameSize.refl c0).halfOf opened.size half),
    fun a b live _ => opened.keeps live, ?_, opened.others, fun _ => opened.owned,
    opened.fault⟩, fun distinct => ?_⟩
  · intro a member
    simp only [Three.toList, Option.toList_some, Option.toList_none, List.append_nil,
      List.cons_append, List.nil_append, List.mem_cons, List.not_mem_nil, or_false] at member ⊢
    rcases member with same | same
    · exact .inl same
    · exact .inr (same ▸ opened.unused)
  · rw [chtItems_one live0] at distinct
    have mine : Distinct (e ::ₘ ↑(m.own src)) := distinct.mono (by
      rw [← Multiset.singleton_add, add_comm, add_assoc]
      exact Multiset.le_add_left _ _)
    refine ⟨?_, fun numbered => ?_⟩
    · rw [chtItems_two live0' live1', chtItems_one live0, add_assoc, opened.stored mine,
        ← Multiset.singleton_add]
      ac_rfl
    · rw [numbered_one live0] at numbered
      exact (numbered_two live0' live1').mpr ⟨numbered, opened.counted mine⟩

/-- A third table, as large as the second. -/
theorem openTable_third {a0 a1 : Addr} {c0 c1 : Cuckoo α} (live0 : m.heap.get a0 = some c0)
    (placed0 : c0.Placed (chtCells E)) (live1 : m.heap.get a1 = some c1)
    (placed1 : c1.Placed (chtCells E)) (ne01 : a0 ≠ a1) (base : c0.Scaled u1 u2)
    (half1 : c0.HalfOf c1) (owned : ∀ x ∈ m.own src, Entry.dst x ≠ 0) (he : Entry.dst e ≠ 0) :
    let r := openTable E m src c1.len1 c1.len2 e
    Turn E src m ⟨some a0, some a1, none⟩ r.1 ⟨some a0, some a1, some r.2⟩ ∧
      (Distinct (chtItems E m src ⟨some a0, some a1, none⟩ + {e}) →
        Gains E src m ⟨some a0, some a1, none⟩ r.1 ⟨some a0, some a1, some r.2⟩ {e}) := by
  have half := Table.halfOf_like (H := chtCells E) half1
  have ready := half1.ready base
  obtain ⟨c, opened⟩ := openTable_opened (E := E) c1.len1 c1.len2 (ready true) (ready false) owned he
  intro r
  have live0' : r.1.heap.get a0 = some c0 := opened.keeps live0
  have live1' : r.1.heap.get a1 = some c1 := opened.keeps live1
  have live2' : r.1.heap.get r.2 = some c := opened.live
  have ne02 : a0 ≠ r.2 := opened.ne live0
  have ne12 : a1 ≠ r.2 := opened.ne live1
  refine ⟨⟨.three live0' placed0 live1' placed1 live2' opened.placed ne01 ne02 ne12 base half1
      ((Table.SameSize.refl c0).halfOf opened.size half),
    fun a b live _ => opened.keeps live, ?_, opened.others, fun _ => opened.owned,
    opened.fault⟩, fun distinct => ?_⟩
  · intro a member
    simp only [Three.toList, Option.toList_some, Option.toList_none, List.append_nil,
      List.cons_append, List.nil_append, List.mem_cons, List.not_mem_nil, or_false] at member ⊢
    rcases member with same | same | same
    · exact .inl (.inl same)
    · exact .inl (.inr same)
    · exact .inr (same ▸ opened.unused)
  · rw [chtItems_two live0 live1] at distinct
    have mine : Distinct (e ::ₘ ↑(m.own src)) := distinct.mono (by
      rw [← Multiset.singleton_add, add_comm, add_assoc]
      exact Multiset.le_add_left _ _)
    refine ⟨?_, fun numbered => ?_⟩
    · rw [chtItems_three live0' live1' live2', chtItems_two live0 live1, add_assoc, add_assoc,
        opened.stored mine, ← Multiset.singleton_add]
      ac_rfl
    · rw [numbered_two live0 live1] at numbered
      exact (numbered_three live0' live1' live2').mpr
        ⟨numbered.1, numbered.2, opened.counted mine⟩

/-- One table in place of three. -/
theorem mergeSlots_turn (src : Key) {a0 a1 a2 : Addr} {c0 c1 c2 : Cuckoo α} (live0 : m.heap.get a0 = some c0)
    (placed0 : c0.Placed (chtCells E)) (live1 : m.heap.get a1 = some c1)
    (live2 : m.heap.get a2 = some c2) (base : c0.Scaled u1 u2) (half1 : c0.HalfOf c1)
    (half2 : c0.HalfOf c2) :
    let r := mergeSlots E m src a0 a1 a2 c0 c1 c2
    Turn E src m ⟨some a0, some a1, some a2⟩ r.1 ⟨some r.2.1, none, none⟩ ∧
      r.1.heap.get r.2.1 = some r.2.2 ∧ r.2.2.Placed (chtCells E) ∧ r.2.2.Scaled u1 u2 ∧
      (Distinct (chtItems E m src ⟨some a0, some a1, some a2⟩) →
        Gains E src m ⟨some a0, some a1, some a2⟩ r.1 ⟨some r.2.1, none, none⟩ 0) := by
  have settled := Table.merge_settled (H := chtCells E) chtCells_lawful (by norm_num) kicktimes E.rand
    (base.ready) (chtCells_agree _) (chtCells_agree _) (chtCells_agree _)
    half1.side half2.side m.rands
  intro r
  let cm := r.2.2
  let heap := (m.heap.alloc cm).1
  have unused : m.heap.get r.2.1 = none := Heap.get_fresh (b := cm)
  have apartFrom : ∀ a c, m.heap.get a = some c → a ≠ r.2.1 := by
    rintro a c before rfl
    rw [unused] at before
    cases before
  have others : ∀ a, a ≠ a0 → a ≠ a1 → a ≠ a2 → r.1.heap.get a = heap.get a := by
    intro a away0 away1 away2
    exact ((Heap.get_free_ne away2).trans (Heap.get_free_ne away1)).trans (Heap.get_free_ne away0)
  have live : r.1.heap.get r.2.1 = some cm :=
    (others _ (apartFrom a0 c0 live0).symm (apartFrom a1 c1 live1).symm
      (apartFrom a2 c2 live2).symm).trans Heap.get_alloc_self
  have scaled := Table.scaled_of_double base settled.size
  have ownSelf : r.1.own src = m.own src ++
      (Table.merge (chtCells E) kicktimes E.rand c0 c1 c2 m.rands).left := Memory.own_deny _
  refine ⟨⟨.one live (settled.placed placed0) scaled, ?_, ?_,
    fun s other => Memory.own_deny_ne other _, ?_, rfl⟩, live, settled.placed placed0, scaled,
    fun distinct => ?_⟩
  · intro a c before away
    simp only [Three.toList, Option.toList_some, List.cons_append, List.nil_append, List.mem_cons,
      List.not_mem_nil, or_false, not_or] at away
    exact (others a away.1 away.2.1 away.2.2).trans (Heap.get_alloc before)
  · intro a member
    have same : a = r.2.1 := by simpa [Three.toList] using member
    exact .inr (same ▸ unused)
  · intro before x hx
    rw [ownSelf] at hx
    rcases List.mem_append.mp hx with hx | hx
    · exact before x hx
    · exact chtCells_free.mp (settled.left x hx).2
  · rw [chtItems_three live0 live1 live2] at distinct
    have apart := (distinct.mono (Multiset.le_add_right _ _)).apart (E := E)
    refine ⟨?_, fun numbered => ?_⟩
    · have stored : cm.stored (chtCells E) + ↑_ = _ := settled.stored apart
      rw [chtItems_one live, chtItems_three live0 live1 live2, ← stored, ownSelf, ← Multiset.coe_add]
      ac_rfl
    · rw [numbered_three live0 live1 live2] at numbered
      exact (numbered_one live).mpr (settled.counted apart numbered.1)

end Open

/-- The first S-CHT of a source without any. -/
theorem grow_first [LawfulEntry α] {m : Memory α} {src : Key} {e : α} (he : Entry.dst e ≠ 0) :
    let r := grow E m src ⟨none, none, none⟩ e
    Turn E src m ⟨none, none, none⟩ r.1 r.2.1 ∧
      (Distinct (chtItems E m src ⟨none, none, none⟩ + {e}) →
        Gains E src m ⟨none, none, none⟩ r.1 r.2.1 {e}) := by
  let new : Cuckoo α := Table.new (chtCells E) u1 u2
  have settled := Table.insert_settled (H := chtCells E) chtCells_lawful (by norm_num)
    ((Table.scaled_new (by norm_num) (by norm_num)).ready : new.Ready) kicktimes E.rand m.rands
    (chtCells_free.mpr he)
  have vacant : new.stored (chtCells E) = 0 := Table.stored_new chtCells_lawful u1 u2
  have apart : (chtCells E).Apart (e ::ₘ new.stored (chtCells E)) := by
    rw [vacant]
    exact Distinct.apart (by simp [Distinct])
  intro r
  let first := new.insert (chtCells E) kicktimes E.rand m.rands e
  let a := (m.heap.alloc first.table).2
  have live : r.1.heap.get a = some first.table := Heap.get_alloc_self
  have slot : r.2.1 = ⟨some a, none, none⟩ := rfl
  have base : first.table.Scaled u1 u2 := settled.size.scaled (Table.scaled_new (by norm_num) (by norm_num))
  have ownSelf : r.1.own src = m.own src ++ first.left.toList := Memory.own_deny _
  rw [slot]
  refine ⟨⟨.one live (settled.placed (Table.placed_new chtCells_lawful u1 u2)) base,
    fun b c before _ => Heap.get_alloc before, ?_, fun s other => Memory.own_deny_ne other _, ?_, rfl⟩,
    fun _ => ⟨?_, fun _ => ?_⟩⟩
  · intro b member
    have same : b = a := by simpa [Three.toList] using member
    exact .inr (same ▸ Heap.get_fresh (b := first.table))
  · intro before x hx
    rw [ownSelf] at hx
    rcases List.mem_append.mp hx with hx | hx
    · exact before x hx
    · exact chtCells_free.mp (settled.left x (Option.mem_toList.mp hx)).2
  · have stored : first.table.stored (chtCells E) + ↑first.left.toList = _ := settled.stored apart
    rw [vacant, zero_add] at stored
    rw [chtItems_one live, chtItems_none, ownSelf, ← Multiset.coe_add, ← stored]
    ac_rfl
  · exact (numbered_one live).mpr (settled.counted apart (Table.counted_new chtCells_lawful u1 u2))

/-- One more S-CHT, after a merge if there are three. -/
theorem grow_turn [LawfulEntry α] {m : Memory α} {src : Key} {slot : Three Addr} {e : α}
    (rooted : Rooted E m slot) (owned : ∀ x ∈ m.own src, Entry.dst x ≠ 0) (he : Entry.dst e ≠ 0) :
    let r := grow E m src slot e
    Turn E src m slot r.1 r.2.1 ∧
      (Distinct (chtItems E m src slot + {e}) → Gains E src m slot r.1 r.2.1 {e}) := by
  rcases rooted.cases with rfl | ⟨a0, c0, rfl, live0, placed0, base⟩ |
    ⟨a0, c0, a1, c1, rfl, live0, placed0, live1, placed1, ne01, base, half1⟩ |
    ⟨a0, c0, a1, c1, a2, c2, rfl, live0, placed0, live1, placed1, live2, placed2, ne01, ne02, ne12,
      base, half1, half2⟩
  · exact grow_first he
  · have second := openTable_second live0 placed0 base owned he
    simpa only [grow, Three.toList, Option.toList_some, Option.toList_none, List.append_nil,
      List.length_singleton, Memory.deref, Option.bind_some, live0, Option.map_some, Three.set]
      using second
  · have third := openTable_third live0 placed0 live1 placed1 ne01 base half1 owned he
    simpa only [grow, Three.toList, Option.toList_some, Option.toList_none, List.append_nil,
      List.cons_append, List.nil_append, List.length_cons, List.length_nil, Memory.deref,
      Option.bind_some, live1, Option.map_some, Three.set] using third
  · obtain ⟨merged, live, placed, scaled, kept⟩ :=
      mergeSlots_turn src live0 placed0 live1 live2 base half1 half2
    obtain ⟨opened, gained⟩ := openTable_second live placed scaled (merged.owned owned) he
    have unfolded : grow E m src ⟨some a0, some a1, some a2⟩ e =
        let r := mergeSlots E m src a0 a1 a2 c0 c1 c2
        let r' := openTable E r.1 src (r.2.2.len1 / 2) (r.2.2.len2 / 2) e
        (r'.1, ⟨some r.2.1, some r'.2, none⟩, 10) := by
      simp [grow, Three.toList, Memory.deref, live0, live1, live2]
    rw [unfolded]
    refine ⟨merged.trans opened, fun distinct => ?_⟩
    have first := kept (distinct.mono (Multiset.le_add_right _ _))
    have second := gained (by simpa only [first.items, add_zero] using distinct)
    simpa only [zero_add] using first.trans second

section Insert

variable {m : Memory α} {src : Key} {slot : Three Addr} {a : Addr} {c : Cuckoo α}

omit [Entry α] in
theorem roomySlot_some {i : Nat} (found : roomySlot m slot = some (i, a, c)) :
    a ∈ slot.toList ∧ m.heap.get a = some c := by
  obtain ⟨j, -, here⟩ := List.exists_of_findSome?_eq_some found
  cases target : slot.get j with
  | none => simp [Memory.deref, target] at here
  | some b =>
      cases live : m.heap.get b with
      | none => simp [Memory.deref, target, live] at here
      | some d =>
          simp only [Memory.deref, target, Option.bind_some, live, Option.map_some,
            Option.ite_none_right_eq_some, Option.some.injEq, Prod.mk.injEq] at here
          obtain ⟨-, -, rfl, rfl⟩ := here
          exact ⟨Three.mem_toList.mpr ⟨j, target⟩, live⟩

variable (src) in
/-- An insertion into one S-CHT: what it leaves out is all that is missing. -/
theorem insert_written [LawfulEntry α] {x : α} (rooted : Rooted E m slot) (hx : Entry.dst x ≠ 0)
    (member : a ∈ slot.toList) (live : m.heap.get a = some c) :
    let first := c.insert (chtCells E) kicktimes E.rand m.rands x
    let m' : Memory α := { m with heap := m.heap.set a first.table, rands := first.draws }
    Written E m slot m' c first.table ∧ (∀ y ∈ first.left.toList, Entry.dst y ≠ 0) ∧
      (Distinct (chtItems E m src slot + {x}) →
        chtItems E m' src slot + ↑first.left.toList = chtItems E m src slot + {x} ∧
          (Numbered E m slot → Numbered E m' slot)) := by
  have settled := Table.insert_settled (H := chtCells E) chtCells_lawful (by norm_num)
    (rooted.ready member live) kicktimes E.rand m.rands (chtCells_free.mpr hx)
  intro first m'
  have written : Written E m slot m' c first.table :=
    rooted.write member live settled.size (settled.placed (rooted.placed member live)) rfl
  refine ⟨written, fun y hy => chtCells_free.mp (settled.left y (Option.mem_toList.mp hy)).2, fun distinct => ?_⟩
  have apart : (chtCells E).Apart (x ::ₘ c.stored (chtCells E)) := by
    apply Distinct.apart
    apply distinct.mono
    rw [← Multiset.singleton_add, add_comm]
    exact add_le_add (le_trans (Three.stored_le (mem_view member live)) (Multiset.le_add_right _ _)) (le_refl _)
  refine ⟨?_, written.numbered (settled.counted apart)⟩
  have stored : first.table.stored (chtCells E) + ↑first.left.toList = c.stored (chtCells E) + {x} :=
    settled.stored apart
  apply add_right_cancel (b := c.stored (chtCells E))
  have own : m'.own = m.own := rfl
  calc _ = ((slot.map m'.heap.get).stored (chtCells E) + c.stored (chtCells E)) +
          ↑first.left.toList + ↑(m.own src) := by
            rw [chtItems, own]
            ac_rfl
    _ = (slot.map m.heap.get).stored (chtCells E) +
          (first.table.stored (chtCells E) + ↑first.left.toList) + ↑(m.own src) := by
            rw [written.stored]
            ac_rfl
    _ = _ := by
            rw [stored, chtItems]
            ac_rfl

/-- `bSlot::insert` for `pt < 0`: the new destination is stored, and no other
    one is lost. -/
theorem insertChts_turn [LawfulEntry α] {x : α} (rooted : Rooted E m slot)
    (owned : ∀ y ∈ m.own src, Entry.dst y ≠ 0) (hx : Entry.dst x ≠ 0) :
    let r := insertChts E m src slot x
    Turn E src m slot r.1 r.2.1 ∧
      (Distinct (chtItems E m src slot + {x}) → Gains E src m slot r.1 r.2.1 {x}) := by
  unfold insertChts
  split
  · exact grow_turn rooted owned hx
  · rename_i i a c found
    obtain ⟨member, live⟩ := roomySlot_some found
    obtain ⟨written, homeless, balance⟩ := insert_written src rooted hx member live
    generalize c.insert (chtCells E) kicktimes E.rand m.rands x = first at written homeless balance ⊢
    let m' : Memory α := { m with heap := m.heap.set a first.table, rands := first.draws }
    have denied : ∀ left : List α, (∀ y ∈ left, Entry.dst y ≠ 0) →
        Turn E src m slot (m'.deny src left) slot := fun left items =>
      written.turn member rfl rfl rfl items
    have turned : Turn E src m slot m' slot := by simpa [Memory.deny] using denied [] (by simp)
    dsimp only
    split
    · rename_i lost
      refine ⟨turned, fun distinct => ⟨?_, (balance distinct).2⟩⟩
      simpa only [lost, Option.toList_none, Multiset.coe_nil, add_zero] using (balance distinct).1
    · rename_i mykick lost
      rw [lost] at homeless
      have balance : Distinct (chtItems E m src slot + {x}) →
          chtItems E m' src slot + {mykick} = chtItems E m src slot + {x} ∧
            (Numbered E m slot → Numbered E m' slot) := by
        intro distinct
        simpa only [lost, Option.toList_some, Multiset.coe_singleton] using balance distinct
      split
      · refine ⟨denied [mykick] homeless, fun distinct => ⟨?_, (balance distinct).2⟩⟩
        have pushed : (m'.deny src [mykick]).own src = m.own src ++ [mykick] := Memory.own_deny _
        calc (slot.map m'.heap.get).stored (chtCells E) + ↑((m'.deny src [mykick]).own src)
            = chtItems E m' src slot + {mykick} := by
              rw [pushed, ← Multiset.coe_add, Multiset.coe_singleton, ← add_assoc]
              rfl
          _ = chtItems E m src slot + {x} := (balance distinct).1
      · have grown := grow_turn written.rooted owned
          (homeless mykick (by simp))
        refine ⟨turned.trans grown.1, fun distinct => ?_⟩
        obtain ⟨same, numbered⟩ := balance distinct
        have gains := grown.2 (same ▸ distinct)
        exact ⟨gains.items.trans same, fun before => gains.numbered (numbered before)⟩

end Insert

end CuckooGraph
