import CuckooGraph.Slot.Rooted

/-! # Writing to one S-CHT of a bSlot

Inserting a destination and deleting one both end with an S-CHT of the same
size at the same address.
-/

namespace CuckooGraph

open TwoLayer

variable {α : Type} [Entry α] {E : Env}

section Write

variable {m m' : Memory α} {src : Key} {slot : Three Addr} {a : Addr} {c c' : Cuckoo α}

omit [Entry α] in
theorem mem_view (member : a ∈ slot.toList) (live : m.heap.get a = some c) :
    c ∈ (slot.map m.heap.get).toList := by
  obtain ⟨i, found⟩ := Three.mem_toList.mp member
  refine Three.mem_toList.mpr ⟨i, ?_⟩
  rw [Three.get_map, found]
  exact live

theorem Rooted.ready (rooted : Rooted E m slot) (member : a ∈ slot.toList)
    (live : m.heap.get a = some c) : c.Ready :=
  rooted.tower.ready c (mem_view member live)

theorem Rooted.placed (rooted : Rooted E m slot) (member : a ∈ slot.toList)
    (live : m.heap.get a = some c) : c.Placed (chtCells E) := by
  obtain ⟨c', live', placed⟩ := rooted.live a member
  rw [live] at live'
  cases live'
  exact placed

/-- Another S-CHT of the same size is written to the address of one. -/
structure Written (E : Env) (m : Memory α) (slot : Three Addr) (m' : Memory α) (c c' : Cuckoo α) :
    Prop where
  rooted : Rooted E m' slot
  stored : (slot.map m'.heap.get).stored (chtCells E) + c.stored (chtCells E) =
    (slot.map m.heap.get).stored (chtCells E) + c'.stored (chtCells E)
  numbered : (c.Counted (chtCells E) → c'.Counted (chtCells E)) → Numbered E m slot → Numbered E m' slot

theorem Rooted.write (rooted : Rooted E m slot) (member : a ∈ slot.toList)
    (live : m.heap.get a = some c) (size : Table.SameSize c c') (placed : c'.Placed (chtCells E))
    (heap : m'.heap = m.heap.set a c') : Written E m slot m' c c' := by
  have self : m'.heap.get a = some c' := heap ▸ Heap.get_set_self live
  have other : ∀ b, b ≠ a → m'.heap.get b = m.heap.get b := fun b ne => heap ▸ Heap.get_set_ne ne
  obtain ⟨i, found⟩ := Three.mem_toList.mp member
  have view : slot.map m'.heap.get = (slot.map m.heap.get).set i (some c') :=
    Three.map_set rooted.nodup found self other
  have before : (slot.map m.heap.get).get i = some c := by
    rw [Three.get_map, found]
    exact live
  refine ⟨⟨rooted.nodup, fun b hb => ?_, ?_⟩, ?_, fun counted numbered d hd => ?_⟩
  · by_cases same : b = a
    · exact same ▸ ⟨c', self, placed⟩
    · exact other b same ▸ rooted.live b hb
  · exact view ▸ rooted.tower.set before size
  · exact view ▸ Three.stored_set before
  · rw [view] at hd
    rcases Three.mem_set hd with hd | rfl
    · exact numbered d hd
    · exact counted (numbered c (mem_view member live))

/-- What goes out and comes in at one S-CHT does so for the `bSlot`. -/
theorem Written.exchange (h : Written E m slot m' c c') (list : m'.sblacklist = m.sblacklist)
    {out inn : Multiset α} (cell : c'.stored (chtCells E) + out = c.stored (chtCells E) + inn) :
    chtItems E m' src slot + out = chtItems E m src slot + inn := by
  have own : m'.own src = m.own src := by rw [Memory.own, list, Memory.own]
  apply add_right_cancel (b := c.stored (chtCells E))
  calc chtItems E m' src slot + out + c.stored (chtCells E)
      = ((slot.map m'.heap.get).stored (chtCells E) + c.stored (chtCells E)) + (↑(m.own src) + out) := by
        rw [chtItems, own]
        ac_rfl
    _ = (slot.map m.heap.get).stored (chtCells E) + ↑(m.own src) + (c'.stored (chtCells E) + out) := by
        rw [h.stored]
        ac_rfl
    _ = _ := by
        rw [cell, chtItems]
        ac_rfl

/-- Writing to an S-CHT and denylisting what it has lost is a turn. -/
theorem Written.turn {left : List α} (h : Written E m slot m' c c') (member : a ∈ slot.toList)
    (heap : m'.heap = m.heap.set a c') (list : m'.sblacklist = m.sblacklist)
    (fault : m'.fault = m.fault) (items : ∀ x ∈ left, Entry.dst x ≠ 0) :
    Turn E src m slot (m'.deny src left) slot := by
  refine .of_deny h.rooted (fun b d before away => ?_) (fun b => .inl) list fault items
  have ne : b ≠ a := fun same => away (same ▸ member)
  exact (congrArg (Heap.get · b) heap).trans ((Heap.get_set_ne ne).trans before)

end Write

section Search

variable {m : Memory α} {slot : Three Addr} {ρ : Type} {f : Nat → Addr → Cuckoo α → Option ρ}

theorem searchSlots_some (rooted : Rooted E m slot) {r : ρ} (found : searchSlots m slot f = some r) :
    ∃ i a c, a ∈ slot.toList ∧ m.heap.get a = some c ∧ f i a c = some r := by
  obtain ⟨i, -, here⟩ := List.exists_of_findSome?_eq_some found
  cases target : slot.get i with
  | none => simp [target, Memory.deref] at here
  | some a =>
      have member := Three.mem_toList.mpr ⟨i, target⟩
      obtain ⟨c, live, -⟩ := rooted.live a member
      simp only [target, Memory.deref, Option.bind_some, live, Option.map_some] at here
      exact ⟨i, a, c, member, live, here⟩

theorem searchSlots_none (missing : searchSlots m slot f = none) {x : α}
    (hx : x ∈ (slot.map m.heap.get).stored (chtCells E)) :
    ∃ i a c, a ∈ slot.toList ∧ m.heap.get a = some c ∧ x ∈ c.stored (chtCells E) ∧ f i a c = none := by
  obtain ⟨c, hc, hx⟩ := Three.mem_stored.mp hx
  obtain ⟨i, view⟩ := Three.mem_toList.mp hc
  rw [Three.get_map, Option.bind_eq_some_iff] at view
  obtain ⟨a, target, live⟩ := view
  have inside := Three.get_lt target
  have every := List.findSome?_eq_none_iff.mp missing i (by interval_cases i <;> simp)
  simp only [target, Memory.deref, Option.bind_some, live, Option.map_some] at every
  exact ⟨i, a, c, Three.mem_toList.mpr ⟨i, target⟩, live, hx, every⟩

end Search

end CuckooGraph
