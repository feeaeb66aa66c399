import CuckooGraph.BSlot
import CuckooGraph.Table.Tower

/-! # What a bSlot refers to

A `bSlot` with `pt = -1` owns its S-CHTs, and the entries of `sblacklist` which
have its source. `Rooted` says that its pointers are alive and its S-CHTs in
shape; `chtItems` is what it stores. A `Turn` is a change of these which leaves
every other S-CHT and every other source's entries alone.
-/

namespace CuckooGraph

open TwoLayer

variable {α : Type}

namespace Memory

variable {m : Memory α} {src s : Key}

/-- The denylisted entries of a source. -/
def own (m : Memory α) (src : Key) : List α :=
  (m.sblacklist.filter fun d => d.src == src).map Arc.item

theorem mem_own {x : α} : x ∈ m.own src ↔ ⟨src, x⟩ ∈ m.sblacklist := by
  simp only [own, List.mem_map, List.mem_filter, beq_iff_eq]
  constructor
  · rintro ⟨⟨_, _⟩, ⟨member, rfl⟩, rfl⟩
    exact member
  · intro member
    exact ⟨⟨src, x⟩, ⟨member, rfl⟩, rfl⟩

theorem own_deny (left : List α) : (m.deny src left).own src = m.own src ++ left := by
  simp [own, deny, List.filter_map, Function.comp_def]

theorem own_deny_ne (other : s ≠ src) (left : List α) : (m.deny src left).own s = m.own s := by
  have absent : (left.map fun x => (⟨src, x⟩ : Arc α)).filter (fun d => d.src == s) = [] := by
    simp [Ne.symm other]
  simp [own, deny, absent]

/-- Draining a source leaves the others their entries. -/
theorem own_drain {m' : Memory α} (drained : m'.sblacklist = m.sblacklist.filter fun d => !(d.src == src)) :
    m'.own src = [] ∧ ∀ s, s ≠ src → m'.own s = m.own s := by
  simp only [own, drained, List.filter_filter]
  refine ⟨by simp, fun s other => congrArg _ (List.filter_congr fun d _ => ?_)⟩
  by_cases same : d.src = s
  · simp [same, other]
  · simp [same]

theorem own_any : (m.sblacklist.any fun d => d.src == src) = true ↔ m.own src ≠ [] := by
  simp [own, List.filter_eq_nil_iff]

end Memory

variable [Entry α] {E : Env}

section Cells

theorem chtCells_free {x : α} : (chtCells E).free x = false ↔ Entry.dst x ≠ 0 := by
  simp [chtCells]

theorem chtCells_lawful [LawfulEntry α] : (chtCells E : Cells α).Lawful where
  zero_free := by simp [chtCells, LawfulEntry.dst_zero]
  same_free x y hx same := by
    have equal : Entry.dst x = Entry.dst y := by
      simp only [chtCells, Bool.and_eq_true, beq_iff_eq] at same
      exact same.2
    rw [chtCells_free] at hx ⊢
    exact equal ▸ hx

theorem chtCells_scan_lawful [LawfulEntry α] : (chtCells E : Cells α).scan.Lawful :=
  ⟨(chtCells_lawful (E := E)).zero_free, (chtCells_lawful (E := E)).same_free⟩

theorem chtCells_agree (cells : List α) : (chtCells E).Agree cells := fun _ _ => rfl

/-- No two entries have the same destination. -/
def Distinct (s : Multiset α) : Prop := (s.map Entry.dst).Nodup

theorem Distinct.mono {s t : Multiset α} (h : Distinct t) (le : s ≤ t) : Distinct s :=
  Multiset.nodup_of_le (Multiset.map_le_map le) h

theorem Distinct.apart {s : Multiset α} (h : Distinct s) : (chtCells E).Apart s := by
  intro a b le
  have pair : Distinct (a ::ₘ b ::ₘ 0) := h.mono le
  have different : Entry.dst a ≠ Entry.dst b := by simpa [Distinct] using pair
  simp [chtCells, different]

theorem distinct_cons {s : Multiset α} {x : α} :
    Distinct (x ::ₘ s) ↔ (∀ y ∈ s, Entry.dst y ≠ Entry.dst x) ∧ Distinct s := by
  simp [Distinct]

end Cells

/-- The pointers of a `bSlot` are alive and different, and their S-CHTs have
    every item in its bucket and the sizes of a tower. -/
structure Rooted (E : Env) (m : Memory α) (slot : Three Addr) : Prop where
  nodup : slot.toList.Nodup
  live : ∀ a ∈ slot.toList, ∃ c, m.heap.get a = some c ∧ c.Placed (chtCells E)
  tower : (slot.map m.heap.get).Tower u1 u2

/-- What a source with these S-CHTs stores: in them, and in `sblacklist`. -/
def chtItems (E : Env) (m : Memory α) (src : Key) (slot : Three Addr) : Multiset α :=
  (slot.map m.heap.get).stored (chtCells E) + ↑(m.own src)

/-- The counts of the S-CHTs are right. -/
def Numbered (E : Env) (m : Memory α) (slot : Three Addr) : Prop :=
  ∀ c ∈ (slot.map m.heap.get).toList, c.Counted (chtCells E)

namespace Rooted

variable {m : Memory α} {a0 a1 a2 : Addr} {c0 c1 c2 : Cuckoo α}

theorem none : Rooted E m ⟨none, none, none⟩ := ⟨.nil, by simp [Three.toList], .none⟩

theorem one (live0 : m.heap.get a0 = some c0) (placed0 : c0.Placed (chtCells E))
    (base : c0.Scaled u1 u2) : Rooted E m ⟨some a0, .none, .none⟩ :=
  ⟨by simp [Three.toList], by simpa [Three.toList] using ⟨c0, live0, placed0⟩,
    by simpa [Three.map, live0] using .one base⟩

theorem two (live0 : m.heap.get a0 = some c0) (placed0 : c0.Placed (chtCells E))
    (live1 : m.heap.get a1 = some c1) (placed1 : c1.Placed (chtCells E)) (ne01 : a0 ≠ a1)
    (base : c0.Scaled u1 u2) (half1 : c0.HalfOf c1) : Rooted E m ⟨some a0, some a1, .none⟩ :=
  ⟨by simpa [Three.toList] using ne01,
    by simpa [Three.toList] using ⟨⟨c0, live0, placed0⟩, ⟨c1, live1, placed1⟩⟩,
    by simpa [Three.map, live0, live1] using .two base half1⟩

theorem three (live0 : m.heap.get a0 = some c0) (placed0 : c0.Placed (chtCells E))
    (live1 : m.heap.get a1 = some c1) (placed1 : c1.Placed (chtCells E))
    (live2 : m.heap.get a2 = some c2) (placed2 : c2.Placed (chtCells E))
    (ne01 : a0 ≠ a1) (ne02 : a0 ≠ a2) (ne12 : a1 ≠ a2)
    (base : c0.Scaled u1 u2) (half1 : c0.HalfOf c1) (half2 : c0.HalfOf c2) :
    Rooted E m ⟨some a0, some a1, some a2⟩ :=
  ⟨by simpa [Three.toList] using ⟨⟨ne01, ne02⟩, ne12⟩,
    by simpa [Three.toList] using ⟨⟨c0, live0, placed0⟩, ⟨c1, live1, placed1⟩, ⟨c2, live2, placed2⟩⟩,
    by simpa [Three.map, live0, live1, live2] using .three base half1 half2⟩

/-- A slot has none, one, two or three S-CHTs. -/
theorem cases {slot : Three Addr} (h : Rooted E m slot) :
    slot = ⟨.none, .none, .none⟩ ∨
    (∃ a0 c0, slot = ⟨some a0, .none, .none⟩ ∧ m.heap.get a0 = some c0 ∧ c0.Placed (chtCells E) ∧
      c0.Scaled u1 u2) ∨
    (∃ a0 c0 a1 c1, slot = ⟨some a0, some a1, .none⟩ ∧ m.heap.get a0 = some c0 ∧
      c0.Placed (chtCells E) ∧ m.heap.get a1 = some c1 ∧ c1.Placed (chtCells E) ∧ a0 ≠ a1 ∧
      c0.Scaled u1 u2 ∧ c0.HalfOf c1) ∨
    (∃ a0 c0 a1 c1 a2 c2, slot = ⟨some a0, some a1, some a2⟩ ∧ m.heap.get a0 = some c0 ∧
      c0.Placed (chtCells E) ∧ m.heap.get a1 = some c1 ∧ c1.Placed (chtCells E) ∧
      m.heap.get a2 = some c2 ∧ c2.Placed (chtCells E) ∧ a0 ≠ a1 ∧ a0 ≠ a2 ∧ a1 ≠ a2 ∧
      c0.Scaled u1 u2 ∧ c0.HalfOf c1 ∧ c0.HalfOf c2) := by
  obtain ⟨s0, s1, s2⟩ := slot
  obtain ⟨nodup, live, tower⟩ := h
  -- a pointer which is not null refers to an S-CHT, so the tower has it too
  rcases s0 with - | a0 <;> rcases s1 with - | a1 <;> rcases s2 with - | a2 <;>
    simp only [Three.toList, Option.toList_none, Option.toList_some, List.nil_append,
      List.append_nil, List.cons_append, List.nodup_cons, List.mem_cons, or_false, forall_eq_or_imp,
      forall_eq, List.mem_nil_iff, IsEmpty.forall_iff, implies_true, not_or,
      not_false_eq_true, List.nodup_nil, and_true] at nodup live
  case none.none.none => exact .inl rfl
  case some.none.none =>
    obtain ⟨c0, live0, placed0⟩ := live
    simp only [Three.map, Option.bind_some, Option.bind_none, live0] at tower
    cases tower with
    | one base => exact .inr (.inl ⟨a0, c0, rfl, live0, placed0, base⟩)
  case some.some.none =>
    obtain ⟨⟨c0, live0, placed0⟩, c1, live1, placed1⟩ := live
    simp only [Three.map, Option.bind_some, Option.bind_none, live0, live1] at tower
    cases tower with
    | two base half1 =>
        exact .inr (.inr (.inl ⟨a0, c0, a1, c1, rfl, live0, placed0, live1, placed1, nodup, base, half1⟩))
  case some.some.some =>
    obtain ⟨⟨c0, live0, placed0⟩, ⟨c1, live1, placed1⟩, c2, live2, placed2⟩ := live
    simp only [Three.map, Option.bind_some, live0, live1, live2] at tower
    cases tower with
    | three base half1 half2 =>
        exact .inr (.inr (.inr ⟨a0, c0, a1, c1, a2, c2, rfl, live0, placed0, live1, placed1, live2,
          placed2, nodup.1.1, nodup.1.2, nodup.2, base, half1, half2⟩))
  -- in the remaining cases the tower has a gap
  all_goals
    simp only [Three.map, Option.bind_none] at tower
    grind [cases Three.Tower]

end Rooted

section Items

variable {m : Memory α} {src : Key} {a0 a1 a2 : Addr} {c0 c1 c2 : Cuckoo α}

@[simp] theorem chtItems_none : chtItems E m src ⟨none, none, none⟩ = ↑(m.own src) := by
  simp [chtItems, Three.map]

theorem chtItems_one (live0 : m.heap.get a0 = some c0) :
    chtItems E m src ⟨some a0, none, none⟩ = c0.stored (chtCells E) + ↑(m.own src) := by
  simp [chtItems, Three.map, live0]

theorem chtItems_two (live0 : m.heap.get a0 = some c0) (live1 : m.heap.get a1 = some c1) :
    chtItems E m src ⟨some a0, some a1, none⟩ =
      c0.stored (chtCells E) + c1.stored (chtCells E) + ↑(m.own src) := by
  simp [chtItems, Three.map, live0, live1]

theorem chtItems_three (live0 : m.heap.get a0 = some c0) (live1 : m.heap.get a1 = some c1)
    (live2 : m.heap.get a2 = some c2) :
    chtItems E m src ⟨some a0, some a1, some a2⟩ =
      c0.stored (chtCells E) + (c1.stored (chtCells E) + c2.stored (chtCells E)) + ↑(m.own src) := by
  simp [chtItems, Three.map, live0, live1, live2]

theorem numbered_none : Numbered E m (⟨none, none, none⟩ : Three Addr) := by
  simp [Numbered, Three.map, Three.toList]

theorem numbered_one (live0 : m.heap.get a0 = some c0) :
    Numbered E m ⟨some a0, none, none⟩ ↔ c0.Counted (chtCells E) := by
  simp [Numbered, Three.map, Three.toList, live0]

theorem numbered_two (live0 : m.heap.get a0 = some c0) (live1 : m.heap.get a1 = some c1) :
    Numbered E m ⟨some a0, some a1, none⟩ ↔ c0.Counted (chtCells E) ∧ c1.Counted (chtCells E) := by
  simp [Numbered, Three.map, Three.toList, live0, live1]

theorem numbered_three (live0 : m.heap.get a0 = some c0) (live1 : m.heap.get a1 = some c1)
    (live2 : m.heap.get a2 = some c2) :
    Numbered E m ⟨some a0, some a1, some a2⟩ ↔
      c0.Counted (chtCells E) ∧ c1.Counted (chtCells E) ∧ c2.Counted (chtCells E) := by
  simp [Numbered, Three.map, Three.toList, live0, live1, live2]

end Items

/-- A change of the S-CHTs and denylisted entries of one source. -/
structure Turn (E : Env) (src : Key) (m : Memory α) (slot : Three Addr) (m' : Memory α)
    (slot' : Three Addr) : Prop where
  rooted : Rooted E m' slot'
  frame : ∀ a c, m.heap.get a = some c → a ∉ slot.toList → m'.heap.get a = some c
  fresh : ∀ a ∈ slot'.toList, a ∈ slot.toList ∨ m.heap.get a = none
  others : ∀ s, s ≠ src → m'.own s = m.own s
  owned : (∀ x ∈ m.own src, Entry.dst x ≠ 0) → ∀ x ∈ m'.own src, Entry.dst x ≠ 0
  fault : m'.fault = m.fault

namespace Turn

variable {src : Key} {m m' m'' : Memory α} {slot slot' slot'' : Three Addr}

theorem refl (rooted : Rooted E m slot) : Turn E src m slot m slot :=
  ⟨rooted, fun _ _ live _ => live, fun _ => .inl, fun _ _ => rfl, id, rfl⟩

/-- The heap has changed, and some entries were denylisted. -/
theorem of_deny {left : List α} (rooted : Rooted E m' slot')
    (frame : ∀ a c, m.heap.get a = some c → a ∉ slot.toList → m'.heap.get a = some c)
    (fresh : ∀ a ∈ slot'.toList, a ∈ slot.toList ∨ m.heap.get a = none)
    (list : m'.sblacklist = m.sblacklist) (fault : m'.fault = m.fault)
    (items : ∀ x ∈ left, Entry.dst x ≠ 0) : Turn E src m slot (m'.deny src left) slot' := by
  have own : ∀ s, m'.own s = m.own s := fun s => by simp only [Memory.own, list]
  refine ⟨⟨rooted.nodup, rooted.live, rooted.tower⟩, frame, fresh,
    fun s other => (Memory.own_deny_ne other left).trans (own s), fun before x hx => ?_, fault⟩
  rw [Memory.own_deny, own] at hx
  rcases List.mem_append.mp hx with hx | hx
  · exact before x hx
  · exact items x hx

theorem trans (h : Turn E src m slot m' slot') (h' : Turn E src m' slot' m'' slot'') :
    Turn E src m slot m'' slot'' where
  rooted := h'.rooted
  frame a c live away := by
    apply h'.frame a c (h.frame a c live away)
    intro member
    rcases h.fresh a member with before | dead
    · exact away before
    · rw [dead] at live
      cases live
  fresh a member := by
    rcases h'.fresh a member with before | dead
    · exact h.fresh a before
    · by_cases away : a ∈ slot.toList
      · exact .inl away
      · right
        by_contra live
        obtain ⟨c, live⟩ := Option.ne_none_iff_exists'.mp live
        rw [h.frame a c live away] at dead
        cases dead
  others s other := (h'.others s other).trans (h.others s other)
  owned before := h'.owned (h.owned before)
  fault := h'.fault.trans h.fault

end Turn

end CuckooGraph
