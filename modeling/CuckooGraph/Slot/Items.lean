import CuckooGraph.Slot.Growth

/-! # What a bSlot stores

A `bSlot` stores destinations inline or in its S-CHTs and the S denylist.
`Tidy` is the part of its shape which needs no memory. A `SlotTurn` is a change
of one `bSlot` that leaves the S-CHTs of every other one and the denylisted
entries of every other source alone.
-/

namespace CuckooGraph

open TwoLayer

variable {α : Type} [Entry α] {E : Env}

/-- The entries written inline. -/
def filled (cells : List α) : Multiset α := (cells : Multiset α).filter fun c => Entry.dst c ≠ 0

theorem mem_filled {cells : List α} {c : α} : c ∈ filled cells ↔ c ∈ cells ∧ Entry.dst c ≠ 0 := by
  simp [filled]

theorem filled_replicate [LawfulEntry α] (n : Nat) : filled (List.replicate n (Entry.zero : α)) = 0 := by
  refine Multiset.filter_eq_nil.mpr fun c hc => ?_
  rw [List.eq_of_mem_replicate hc]
  exact not_not_intro LawfulEntry.dst_zero

theorem filled_set (cells : List α) {j : Nat} (hj : j < cells.length) (x : α) :
    filled (cells.set j x) + filled [cells[j]] = filled cells + filled [x] := by
  have exchange := congrArg (Multiset.filter fun c => Entry.dst c ≠ 0) (coe_set cells hj x)
  simpa only [filled, Multiset.filter_add, Multiset.coe_singleton] using exchange

theorem filled_single {x : α} (hx : Entry.dst x ≠ 0) : filled [x] = {x} := by
  simp [filled, hx]

theorem filled_single_free {x : α} (hx : Entry.dst x = 0) : filled [x] = 0 := by
  simp [filled, hx]

/-- The inline cells of a `bSlot` with `pt ≥ 0`. -/
structure Inline (src : Key) (pt : Nat) (cells : List α) : Prop where
  width : cells.length = Entry.lt α
  count : (filled cells).card = pt
  blank : ∀ c ∈ cells, Entry.dst c = 0 → c = Entry.zero
  empty : src = 0 ↔ pt = 0

namespace Inline

variable {src : Key} {pt : Nat} {cells : List α}

theorem le (h : Inline src pt cells) : pt ≤ Entry.lt α := by
  rw [← h.count, ← h.width]
  exact (Multiset.card_le_card (Multiset.filter_le _ _)).trans_eq (Multiset.coe_card cells)

/-- With every cell filled, the cells are what is stored. -/
theorem full (h : Inline src (Entry.lt α) cells) : filled cells = ↑cells := by
  refine Multiset.eq_of_le_of_card_le (Multiset.filter_le _ _) ?_
  rw [Multiset.coe_card, h.width]
  exact h.count.ge

theorem vacant (h : Inline src 0 cells) : cells = List.replicate (Entry.lt α) Entry.zero := by
  refine List.eq_replicate_iff.mpr ⟨h.width, fun c hc => h.blank c hc ?_⟩
  by_contra occupied
  have member := mem_filled.mpr ⟨hc, occupied⟩
  rw [Multiset.card_eq_zero.mp h.count] at member
  exact Multiset.notMem_zero c member

theorem free (h : Inline src pt cells) (room : pt ≠ Entry.lt α) : ∃ c ∈ cells, Entry.dst c = 0 := by
  by_contra none
  push Not at none
  have all : filled cells = ↑cells := Multiset.filter_eq_self.mpr none
  apply room
  rw [← h.count, all, Multiset.coe_card, h.width]

/-- Writing to a free cell. -/
theorem fill (h : Inline src pt cells) (known : src ≠ 0) {j : Nat} (hj : j < cells.length)
    (free : Entry.dst cells[j] = 0) {x : α} (hx : Entry.dst x ≠ 0) :
    Inline src (pt + 1) (cells.set j x) ∧ filled (cells.set j x) = filled cells + {x} := by
  have items := filled_set cells hj x
  rw [filled_single_free free, filled_single hx, add_zero] at items
  refine ⟨⟨by rw [List.length_set, h.width], by rw [items, Multiset.card_add, h.count]; rfl, ?_, ?_⟩,
    items⟩
  · intro c hc zero
    rcases List.mem_or_eq_of_mem_set hc with hc | rfl
    · exact h.blank c hc zero
    · contradiction
  · simp [known]

/-- Exchanging an entry for another one of the same destination. -/
theorem change (h : Inline src pt cells) {j : Nat} (hj : j < cells.length) {x : α}
    (used : Entry.dst cells[j] ≠ 0) (hx : Entry.dst x ≠ 0) :
    Inline src pt (cells.set j x) ∧ filled (cells.set j x) + {cells[j]} = filled cells + {x} := by
  have items := filled_set cells hj x
  rw [filled_single used, filled_single hx] at items
  refine ⟨⟨by rw [List.length_set, h.width], ?_, ?_, h.empty⟩, items⟩
  · have card := congrArg Multiset.card items
    simpa only [Multiset.card_add, Multiset.card_singleton, Nat.add_right_cancel_iff, h.count]
      using card
  · intro c hc zero
    rcases List.mem_or_eq_of_mem_set hc with hc | rfl
    · exact h.blank c hc zero
    · contradiction

/-- Clearing a cell. The source goes with its last entry. -/
theorem clear [LawfulEntry α] (h : Inline src (pt + 1) cells) {j : Nat} (hj : j < cells.length)
    (used : Entry.dst cells[j] ≠ 0) :
    Inline (if pt = 0 then 0 else src) pt (cells.set j Entry.zero) ∧
      filled (cells.set j Entry.zero) + {cells[j]} = filled cells := by
  have items := filled_set cells hj Entry.zero
  rw [filled_single used, filled_single_free LawfulEntry.dst_zero, add_zero] at items
  refine ⟨⟨by rw [List.length_set, h.width], ?_, ?_, ?_⟩, items⟩
  · have card := congrArg Multiset.card items
    rw [Multiset.card_add, Multiset.card_singleton, h.count] at card
    omega
  · intro c hc zero
    rcases List.mem_or_eq_of_mem_set hc with hc | rfl
    · exact h.blank c hc zero
    · rfl
  · have known : src ≠ 0 := fun same => absurd (h.empty.mp same) (by omega)
    by_cases last : pt = 0
    · simp [last]
    · simp [last, known]

end Inline

namespace BSlot

/-- The `bSlot` of a new source. -/
def single (e : Arc α) : BSlot α :=
  ⟨e.src, .inline 1 ((List.replicate (Entry.lt α) Entry.zero).set 0 e.item)⟩

def Tidy (b : BSlot α) : Prop :=
  match b.body with
  | .inline pt cells => Inline b.src pt cells
  | .chts _ => b.src ≠ 0

def Rooted (E : Env) (m : Memory α) (b : BSlot α) : Prop :=
  match b.body with
  | .inline _ _ => True
  | .chts slot => CuckooGraph.Rooted E m slot

def Numbered (E : Env) (m : Memory α) (b : BSlot α) : Prop :=
  match b.body with
  | .inline _ _ => True
  | .chts slot => CuckooGraph.Numbered E m slot

/-- What is stored for the source of a `bSlot`. -/
def items (E : Env) (m : Memory α) (b : BSlot α) : Multiset α :=
  match b.body with
  | .inline _ cells => filled cells
  | .chts slot => chtItems E m b.src slot

/-- Only a `bSlot` with `pt = -1` looks at `sblacklist`. -/
def Heeds (m : Memory α) (b : BSlot α) : Prop :=
  match b.body with
  | .inline _ _ => m.own b.src = []
  | .chts _ => True

variable {b : BSlot α} {m : Memory α}

theorem tidy_empty [LawfulEntry α] : (empty : BSlot α).Tidy where
  width := List.length_replicate
  count := by rw [filled_replicate, Multiset.card_zero]
  blank c hc _ := List.eq_of_mem_replicate hc
  empty := by simp [empty]

theorem Tidy.eq_empty (h : b.Tidy) (vacant : b.isSlotEmpty = true) : b = empty := by
  obtain ⟨src, body⟩ := b
  cases body with
  | inline pt cells =>
      have h : Inline src pt cells := h
      obtain rfl : pt = 0 := by simpa [isSlotEmpty, BSlot.pt] using vacant
      rw [h.vacant, h.empty.mpr rfl]
      rfl
  | chts slot => simp [isSlotEmpty, BSlot.pt] at vacant

theorem Tidy.src_eq_zero (h : b.Tidy) : b.src = 0 ↔ b.isSlotEmpty = true := by
  obtain ⟨src, body⟩ := b
  cases body with
  | inline pt cells =>
      have h : Inline src pt cells := h
      simpa [isSlotEmpty, BSlot.pt] using h.empty
  | chts slot =>
      have h : src ≠ 0 := h
      simpa [isSlotEmpty, BSlot.pt] using h

theorem single_inline [LawfulEntry α] {e : Arc α} (hs : e.src ≠ 0) (hd : Entry.dst e.item ≠ 0) :
    Inline e.src 1 ((List.replicate (Entry.lt α) Entry.zero).set 0 e.item) ∧
      filled ((List.replicate (Entry.lt α) Entry.zero).set 0 e.item) = {e.item} := by
  have room : 0 < (List.replicate (Entry.lt α) (Entry.zero : α)).length := by
    rw [List.length_replicate]
    exact LawfulEntry.lt_pos
  have items := filled_set (List.replicate (Entry.lt α) Entry.zero) room e.item
  rw [filled_single hd, filled_replicate, List.getElem_replicate,
    filled_single_free LawfulEntry.dst_zero, add_zero, zero_add] at items
  refine ⟨⟨by rw [List.length_set, List.length_replicate], by rw [items]; rfl, ?_, by simp [hs]⟩, items⟩
  intro c hc zero
  rcases List.mem_or_eq_of_mem_set hc with hc | rfl
  · exact List.eq_of_mem_replicate hc
  · contradiction

end BSlot

/-- A change of one `bSlot`, and of the memory for its sake. -/
structure SlotTurn (E : Env) (m : Memory α) (b : BSlot α) (m' : Memory α) (b' : BSlot α) : Prop where
  tidy : b'.Tidy
  rooted : b'.Rooted E m'
  frame : ∀ a c, m.heap.get a = some c → a ∉ b.addrs → m'.heap.get a = some c
  fresh : ∀ a ∈ b'.addrs, a ∈ b.addrs ∨ m.heap.get a = none
  others : ∀ s, s ≠ b.src → m'.own s = m.own s
  owned : (∀ x ∈ m.own b.src, Entry.dst x ≠ 0) → ∀ x ∈ m'.own b.src, Entry.dst x ≠ 0
  fault : m'.fault = m.fault

/-- Afterwards the `bSlot` of the source stores `e` in addition. -/
structure SlotGains (E : Env) (m : Memory α) (b : BSlot α) (m' : Memory α) (b' : BSlot α)
    (e : Multiset α) : Prop where
  items : b'.items E m' = b.items E m + e
  numbered : b.Numbered E m → b'.Numbered E m'

namespace SlotTurn

variable {m m' : Memory α} {b b' : BSlot α} {src : Key} {slot slot' : Three Addr}

theorem refl (tidy : b.Tidy) (rooted : b.Rooted E m) : SlotTurn E m b m b :=
  ⟨tidy, rooted, fun _ _ live _ => live, fun _ => .inl, fun _ _ => rfl, id, rfl⟩

theorem trans {m'' : Memory α} {b'' : BSlot α} (h : SlotTurn E m b m' b')
    (h' : SlotTurn E m' b' m'' b'') (same : b'.src = b.src) : SlotTurn E m b m'' b'' where
  tidy := h'.tidy
  rooted := h'.rooted
  frame a c live away := by
    apply h'.frame a c (h.frame a c live away)
    intro member
    rcases h.fresh a member with before | dead
    · exact away before
    · rw [dead] at live
      cases live
  fresh a member := by
    rcases h'.fresh a member with before | dead
    · exact h.fresh a before
    · by_cases away : a ∈ b.addrs
      · exact .inl away
      · right
        by_contra live
        obtain ⟨c, live⟩ := Option.ne_none_iff_exists'.mp live
        rw [h.frame a c live away] at dead
        cases dead
  others s other := (h'.others s (same ▸ other)).trans (h.others s other)
  owned before x hx := h'.owned (fun y hy => h.owned before y (same ▸ hy)) x (same.symm ▸ hx)
  fault := h'.fault.trans h.fault

theorem of_turn (h : Turn E src m slot m' slot') (known : src ≠ 0) :
    SlotTurn E m ⟨src, .chts slot⟩ m' ⟨src, .chts slot'⟩ :=
  ⟨known, h.rooted, h.frame, h.fresh, h.others, h.owned, h.fault⟩

theorem of_inline {pt : Nat} {cells : List α} (h : b'.body = .inline pt cells) (tidy : b'.Tidy) :
    SlotTurn E m b m b' where
  tidy := tidy
  rooted := by simp [BSlot.Rooted, h]
  frame _ _ live _ := live
  fresh a member := by simp [BSlot.addrs, h] at member
  others _ _ := rfl
  owned := id
  fault := rfl

end SlotTurn

theorem SlotGains.of_gains {m m' : Memory α} {src : Key} {slot slot' : Three Addr} {e : Multiset α}
    (h : Gains E src m slot m' slot' e) :
    SlotGains E m ⟨src, .chts slot⟩ m' ⟨src, .chts slot'⟩ e := ⟨h.items, h.numbered⟩

end CuckooGraph
