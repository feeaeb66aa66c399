import CuckooGraph.Holemerge
import CuckooGraph.Slot.Items

/-! # The bSlots of a graph

`Framed` is the shape of the links and of `blacklist`: it does not look into the
S-CHTs, so it holds whatever these contain. The `bSlot`s of a graph are the
multiset `slots`; every operation on the links is a statement about it.
-/

namespace CuckooGraph

open TwoLayer

namespace Holemerge

variable {α : Type} [Entry α] {E : Env} {h : Holemerge α}

/-- The `bSlot`s which are not empty, in the links and in `blacklist`. -/
def slots (E : Env) (h : Holemerge α) : Multiset (BSlot α) :=
  h.link.stored (h.slotCells E) + ↑h.blacklist

/-- Every link counts its `bSlot`s. -/
def Tallied (E : Env) (h : Holemerge α) : Prop := ∀ t ∈ h.link.toList, t.Counted (h.slotCells E)

structure Framed (E : Env) (h : Holemerge α) : Prop where
  sizes : 2 ≤ h.ll2 ∧ h.ll2 ≤ h.ll1
  state : h.state + 1 = h.link.toList.length
  tower : h.link.Tower h.ll1 h.ll2
  placed : ∀ t ∈ h.link.toList, t.Placed (h.slotCells E)
  tidy : ∀ t ∈ h.link.toList, ∀ s ∈ t.cells, s.Tidy
  listed : ∀ s ∈ h.blacklist, s.Tidy ∧ s.isSlotEmpty = false

section Cells

theorem slotCells_lawful : (h.slotCells E).Lawful := ⟨rfl, fun _ _ _ same => by cases same⟩

theorem slotCells_scan_lawful : (h.slotCells E).scan.Lawful := ⟨rfl, fun _ _ _ same => by cases same⟩

theorem slotCells_apart (s : Multiset (BSlot α)) : (h.slotCells E).Apart s :=
  Cells.apart_of_never (fun _ _ => rfl) s

/-- The scans pass over exactly the empty `bSlot`s. -/
theorem slotCells_agree {cells : List (BSlot α)} (tidy : ∀ s ∈ cells, s.Tidy) :
    (h.slotCells E).Agree cells := by
  intro s hs
  have zero := (tidy s hs).src_eq_zero
  change (s.src == 0) = s.isSlotEmpty
  cases vacant : s.isSlotEmpty with
  | true => simpa using zero.mpr vacant
  | false =>
      have used : s.src ≠ 0 := fun same => by simp [zero.mp same] at vacant
      simpa using used

end Cells

theorem mem_slots {s : BSlot α} : s ∈ h.slots E ↔
    (∃ t ∈ h.link.toList, s ∈ t.cells ∧ s.isSlotEmpty = false) ∨ s ∈ h.blacklist := by
  rw [slots, Multiset.mem_add, Three.mem_stored, Multiset.mem_coe]
  simp only [Table.mem_stored]
  rfl

namespace Framed

variable (framed : h.Framed E)

include framed

theorem slot_tidy {s : BSlot α} (hs : s ∈ h.slots E) : s.Tidy ∧ s.isSlotEmpty = false := by
  rcases mem_slots.mp hs with ⟨t, ht, hs, used⟩ | hs
  · exact ⟨framed.tidy t ht s hs, used⟩
  · exact framed.listed s hs

/-- The blacklist takes more `bSlot`s. -/
theorem listed_append {left : List (BSlot α)} (new : ∀ s ∈ left, s.Tidy ∧ s.isSlotEmpty = false) :
    ∀ s ∈ h.blacklist ++ left, s.Tidy ∧ s.isSlotEmpty = false := by
  intro s hs
  cases List.mem_append.mp hs with
  | inl old => exact framed.listed s old
  | inr added => exact new s added

theorem slot_src {s : BSlot α} (hs : s ∈ h.slots E) : s.src ≠ 0 := by
  obtain ⟨tidy, used⟩ := framed.slot_tidy hs
  intro zero
  rw [tidy.src_eq_zero.mp zero] at used
  cases used

theorem ready {t : BCuckoo α} (ht : t ∈ h.link.toList) : t.Ready :=
  framed.tower.ready t ht

/-- With `state + 1` links, `state` is the number of the last of them. -/
theorem get_le {i : Nat} {t : BCuckoo α} (found : h.link.get i = some t) : (i : Int) ≤ h.state := by
  have inside := Three.get_lt found
  have state := framed.state
  have tower := framed.tower
  generalize h.link = link at tower state found
  cases tower <;> interval_cases i <;> cases found <;>
    simp only [Three.toList, Option.toList_some, Option.toList_none, List.append_nil,
      List.cons_append, List.nil_append, List.length_cons, List.length_nil] at state <;> omega

/-- The links `link[0..state]` are those which exist. -/
theorem cases : (h.link = ⟨none, none, none⟩ ∧ h.state = -1) ∨
    (∃ t0, h.link = ⟨some t0, none, none⟩ ∧ h.state = 0) ∨
    (∃ t0 t1, h.link = ⟨some t0, some t1, none⟩ ∧ h.state = 1) ∨
    (∃ t0 t1 t2, h.link = ⟨some t0, some t1, some t2⟩ ∧ h.state = 2) := by
  have state := framed.state
  have tower := framed.tower
  generalize h.link = link at tower state
  cases tower <;>
    simp only [Three.toList, Option.toList_some, Option.toList_none, List.append_nil,
      List.cons_append, List.nil_append, List.length_cons, List.length_nil] at state
  case none => exact .inl ⟨rfl, by omega⟩
  case one t0 _ => exact .inr (.inl ⟨t0, rfl, by omega⟩)
  case two t0 t1 _ _ => exact .inr (.inr (.inl ⟨t0, t1, rfl, by omega⟩))
  case three t0 t1 t2 _ _ _ => exact .inr (.inr (.inr ⟨t0, t1, t2, rfl, by omega⟩))

theorem mem_tables {i : Nat} {t : BCuckoo α} : (i, t) ∈ h.tables ↔ h.link.get i = some t := by
  simp only [tables, List.mem_filterMap, Option.ite_none_right_eq_some, Option.map_eq_some_iff,
    Prod.mk.injEq]
  constructor
  · rintro ⟨j, -, -, t', found, rfl, rfl⟩
    exact found
  · intro found
    have inside := Three.get_lt found
    refine ⟨i, ?_, framed.get_le found, t, found, rfl, rfl⟩
    interval_cases i <;> simp

end Framed

/-- Where a `bSlot` stands. -/
def Stands (E : Env) (h : Holemerge α) (loc : Loc) (s : BSlot α) : Prop :=
  match loc with
  | .link i flag ha j => ∃ t, h.link.get i = some t ∧ t.At flag ha j s ∧
      ha = E.mmhash s.src (h.seed flag) % (t.side flag).length
  | .denied j => h.blacklist[j]? = some s

section Locate

variable {src : Key} {t : BCuckoo α}

/-- The bucket of a source is that of any `bSlot` of it. -/
theorem home_eq (s : BSlot α) (same : s.src = src) (flag : Bool) :
    h.home E t flag src =
      (Layer.pos ((h.slotCells E).hash flag) (t.side flag) s, t.bucketOf (h.slotCells E) flag s) := by
  subst same
  rfl

theorem locateIn_some (ready : t.Ready) {flag : Bool} {ha j : Nat} {s : BSlot α}
    (found : h.locateIn E t src = some (flag, ha, j, s)) :
    t.At flag ha j s ∧ ha = E.mmhash s.src (h.seed flag) % (t.side flag).length ∧ s.src = src := by
  obtain ⟨side, -, here⟩ := List.exists_of_findSome?_eq_some found
  simp only [Option.map_eq_some_iff, Prod.mk.injEq] at here
  obtain ⟨⟨s', j'⟩, cell, rfl, rfl, rfl, rfl⟩ := here
  have same : s'.src = src := by simpa using List.find?_some cell
  have member := List.mem_of_find?_eq_some cell
  rw [List.mem_zipIdx_iff_getElem?] at member
  rw [home_eq s' same] at member ⊢
  exact ⟨Table.at_of_bucketOf ready member, rfl, same⟩

theorem locateIn_none (placed : t.Placed (h.slotCells E)) (missing : h.locateIn E t src = none) :
    ∀ s ∈ t.stored (h.slotCells E), s.src ≠ src := by
  intro s hs same
  obtain ⟨flag, hc⟩ := Table.mem_bucketOf placed hs fun _ => rfl
  have every := List.findSome?_eq_none_iff.mp missing flag (by cases flag <;> simp)
  simp only [Option.map_eq_none_iff, home_eq s same] at every
  obtain ⟨j, here⟩ := List.mem_iff_getElem?.mp hc
  have unseen := List.find?_eq_none.mp every (s, j) (List.mem_zipIdx_iff_getElem?.mpr here)
  simp [same] at unseen

theorem locate_some (framed : h.Framed E) {loc : Loc} {s : BSlot α}
    (found : h.locate E src = some (loc, s)) : h.Stands E loc s ∧ s.src = src := by
  unfold locate at found
  split at found
  · rename_i place hit
    cases found
    obtain ⟨⟨i, t⟩, ht, here⟩ := List.exists_of_findSome?_eq_some hit
    simp only [Option.map_eq_some_iff, Prod.mk.injEq] at here
    obtain ⟨⟨flag, ha, j, s'⟩, inTable, rfl, rfl⟩ := here
    have linked := framed.mem_tables.mp ht
    obtain ⟨cell, position, same⟩ :=
      locateIn_some (framed.ready (Three.mem_toList.mpr ⟨i, linked⟩)) inTable
    exact ⟨⟨t, linked, cell, position⟩, same⟩
  · simp only [Option.map_eq_some_iff, Prod.mk.injEq] at found
    obtain ⟨⟨s', j⟩, cell, rfl, rfl⟩ := found
    have member := List.mem_of_find?_eq_some cell
    exact ⟨List.mem_zipIdx_iff_getElem?.mp member, by simpa using List.find?_some cell⟩

theorem locate_none (framed : h.Framed E) (missing : h.locate E src = none) :
    ∀ s ∈ h.slots E, s.src ≠ src := by
  intro s hs
  unfold locate at missing
  split at missing
  · cases missing
  · rename_i nowhere
    rcases Multiset.mem_add.mp hs with hs | hs
    · obtain ⟨t, ht, hs⟩ := Three.mem_stored.mp hs
      obtain ⟨i, linked⟩ := Three.mem_toList.mp ht
      have every := List.findSome?_eq_none_iff.mp nowhere (i, t) (framed.mem_tables.mpr linked)
      exact locateIn_none (framed.placed t ht) (by simpa using every) s hs
    · simp only [Option.map_eq_none_iff, List.find?_eq_none] at missing
      obtain ⟨j, here⟩ := List.mem_iff_getElem?.mp (Multiset.mem_coe.mp hs)
      simpa using missing (s, j) (List.mem_zipIdx_iff_getElem?.mpr here)

theorem Stands.mem (framed : h.Framed E) {loc : Loc} {s : BSlot α} (stands : h.Stands E loc s)
    (known : s.src ≠ 0) : s ∈ h.slots E := by
  cases loc with
  | link i flag ha j =>
      obtain ⟨t, linked, cell, -⟩ := stands
      have ht := Three.mem_toList.mpr ⟨i, linked⟩
      refine mem_slots.mpr (.inl ⟨t, ht, cell.mem, ?_⟩)
      have zero := (framed.tidy t ht s cell.mem).src_eq_zero
      by_contra vacant
      exact known (zero.mpr (by simpa using vacant))
  | denied j => exact mem_slots.mpr (.inr (List.mem_of_getElem? stands))

end Locate

end Holemerge

end CuckooGraph
