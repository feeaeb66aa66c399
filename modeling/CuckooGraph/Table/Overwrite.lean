import CuckooGraph.Table.Kick

/-! # Finding a cell of a table and writing to it

A table looks an item up in two buckets, one in each layer. Since every item is
in the bucket its hash names, the two buckets hold it if the table does.
-/

namespace TwoLayer

namespace Table

variable {α : Type} {w : Nat}

/-- The bucket of a layer that the hash of an item names. -/
def bucketOf (H : Cells α) (t : Table w α) (flag : Bool) (x : α) : Bucket w α :=
  Layer.bucketAt H (t.side flag) (Layer.pos (H.hash flag) (t.side flag) x)

/-- Write `x` to the `j`-th cell of the `i`-th bucket of a layer. -/
def overwrite (H : Cells α) (t : Table w α) (flag : Bool) (i j : Nat) (x : α) : Table w α :=
  t.withSide flag ((t.side flag).set i ((Layer.bucketAt H (t.side flag) i).set j x))

variable {H : Cells α} {t : Table w α} {flag : Bool} {i j : Nat} {x c : α}

/-- The `j`-th cell of the `i`-th bucket of a layer is `c`. -/
def At (t : Table w α) (flag : Bool) (i j : Nat) (c : α) : Prop :=
  ∃ b, (t.side flag)[i]? = some b ∧ b.cells[j]? = some c

theorem At.mem (h : t.At flag i j c) : c ∈ t.cells := by
  obtain ⟨b, hb, hc⟩ := h
  obtain ⟨hi, rfl⟩ := List.getElem?_eq_some_iff.mp hb
  exact (mem_cells_sides t flag).mpr (.inl (Layer.cells_getElem hi (List.mem_of_getElem? hc)))

/-- An occupied cell is in the bucket its item names. -/
theorem At.pos (h : t.At flag i j c) (placed : t.Placed H) (occupied : H.free c = false) :
    H.hash flag c % (t.side flag).length = i := by
  obtain ⟨b, hb, hc⟩ := h
  obtain ⟨hi, rfl⟩ := List.getElem?_eq_some_iff.mp hb
  exact placed flag i hi c (List.mem_of_getElem? hc) occupied

section Lookup

theorem at_of_bucketOf (ready : t.Ready) (hj : (t.bucketOf H flag x).cells[j]? = some c) :
    t.At flag (Layer.pos (H.hash flag) (t.side flag) x) j c := by
  have inside := Layer.pos_lt (H.hash flag) (ready flag) x
  rw [bucketOf, Layer.bucketAt_eq inside] at hj
  exact ⟨_, List.getElem?_eq_getElem inside, hj⟩

/-- Whatever is found in a bucket is in a cell of the table. -/
theorem at_of_findIdx {p : α → Bool} (ready : t.Ready)
    (found : (t.bucketOf H flag x).cells.findIdx? p = some j) :
    ∃ c, p c = true ∧ t.At flag (Layer.pos (H.hash flag) (t.side flag) x) j c := by
  obtain ⟨hj, here, -⟩ := List.findIdx?_eq_some_iff_getElem.mp found
  exact ⟨_, here, at_of_bucketOf ready (List.getElem?_eq_some_iff.mpr ⟨hj, rfl⟩)⟩

/-- A stored item is in one of the two buckets of any item with its hashes. -/
theorem mem_bucketOf (placed : t.Placed H) (stored : c ∈ t.stored H)
    (agree : ∀ flag, H.hash flag x = H.hash flag c) :
    ∃ flag, c ∈ (t.bucketOf H flag x).cells := by
  obtain ⟨member, occupied⟩ := (mem_stored t).mp stored
  have here : ∀ flag, c ∈ Layer.cells (t.side flag) → c ∈ (t.bucketOf H flag x).cells := by
    intro flag hc
    obtain ⟨i, hi, hc⟩ := Layer.mem_cells.mp hc
    have position : Layer.pos (H.hash flag) (t.side flag) x = i := by
      rw [Layer.pos, agree]
      exact placed flag i hi c hc occupied
    rwa [bucketOf, position, Layer.bucketAt_eq hi]
  rcases (mem_cells_sides t true).mp member with hc | hc
  · exact ⟨true, here true hc⟩
  · exact ⟨false, here false hc⟩

theorem mem_of_bucketOf (ready : t.Ready) (hc : c ∈ (t.bucketOf H flag x).cells) : c ∈ t.cells := by
  have inside := Layer.pos_lt (H.hash flag) (ready flag) x
  rw [bucketOf, Layer.bucketAt_eq inside] at hc
  exact (mem_cells_sides t flag).mpr (.inl (Layer.cells_getElem inside hc))

end Lookup

section Overwrite

theorem overwrite_size : SameSize t (t.overwrite H flag i j x) := by
  intro side
  cases flag <;> cases side <;> simp [overwrite, withSide, Table.side]

@[simp] theorem overwrite_num : (t.overwrite H flag i j x).num = t.num := by
  simp [overwrite]

theorem mem_overwrite {d : α} (h : t.At flag i j c) (hd : d ∈ (t.overwrite H flag i j x).cells) :
    d ∈ t.cells ∨ d = x := by
  obtain ⟨b, hb, -⟩ := h
  obtain ⟨hi, rfl⟩ := List.getElem?_eq_some_iff.mp hb
  rcases (mem_cells_sides _ flag).mp hd with hd | hd
  · simp only [overwrite, side_withSide, Layer.bucketAt_eq hi] at hd
    rcases Layer.mem_cells_set hd with hd | hd
    · exact .inl ((mem_cells_sides t flag).mpr (.inl hd))
    · exact (Bucket.mem_set hd).imp_left fun old =>
        (mem_cells_sides t flag).mpr (.inl (Layer.cells_getElem hi old))
  · simp only [overwrite, side_withSide_not] at hd
    exact .inl ((mem_cells_sides t flag).mpr (.inr hd))

theorem stored_overwrite (h : t.At flag i j c) :
    (t.overwrite H flag i j x).stored H + H.occupied {c} = t.stored H + H.occupied {x} := by
  obtain ⟨b, hb, hc⟩ := h
  obtain ⟨hi, rfl⟩ := List.getElem?_eq_some_iff.mp hb
  obtain ⟨hj, rfl⟩ := List.getElem?_eq_some_iff.mp hc
  have layer := Layer.occupied_set (H := H) hi ((t.side flag)[i].set j x)
  have bucket := Bucket.occupied_set (H := H) hj x
  rw [stored_sides _ flag, stored_sides t flag]
  simp only [overwrite, side_withSide, side_withSide_not, Layer.bucketAt_eq hi]
  apply add_right_cancel (b := H.occupied ↑(t.side flag)[i].cells)
  calc _ = (H.occupied ↑(Layer.cells ((t.side flag).set i ((t.side flag)[i].set j x))) +
            H.occupied ↑(t.side flag)[i].cells) +
          (H.occupied ↑(Layer.cells (t.side !flag)) + H.occupied {(t.side flag)[i].cells[j]}) := by
        ac_rfl
    _ = (H.occupied ↑(Layer.cells (t.side flag)) + H.occupied ↑(Layer.cells (t.side !flag))) +
          (H.occupied ↑((t.side flag)[i].set j x).cells + H.occupied {(t.side flag)[i].cells[j]}) := by
        rw [layer]
        ac_rfl
    _ = _ := by
        rw [bucket]
        ac_rfl

theorem placed_overwrite (h : t.At flag i j c) (placed : t.Placed H)
    (here : H.free x = false → H.hash flag x % (t.side flag).length = i) :
    (t.overwrite H flag i j x).Placed H := by
  obtain ⟨b, hb, -⟩ := h
  obtain ⟨hi, rfl⟩ := List.getElem?_eq_some_iff.mp hb
  intro side
  by_cases same : side = flag
  · subst same
    simp only [overwrite, side_withSide, Layer.bucketAt_eq hi]
    refine (placed side).set fun d hd occupied => ?_
    rcases Bucket.mem_set hd with hd | rfl
    · exact placed side i hi d hd occupied
    · exact here occupied
  · rw [show side = !flag by cases side <;> cases flag <;> simp_all]
    simpa only [overwrite, side_withSide_not] using placed (!flag)

/-- Clearing the cell of an item takes the item away. -/
theorem clear {z : α} (h : t.At flag i j c) (placed : t.Placed H) (occupied : H.free c = false)
    (vacant : H.free z = true) :
    let t' := { t.overwrite H flag i j z with num := t.num - 1 }
    SameSize t t' ∧ t'.Placed H ∧ t'.stored H + {c} = t.stored H ∧ (t.Counted H → t'.Counted H) := by
  have stored := stored_overwrite (H := H) (x := z) h
  rw [Cells.occupied_singleton occupied, Cells.occupied_singleton_free vacant, add_zero] at stored
  refine ⟨overwrite_size, placed_overwrite h placed fun taken => ?_, stored, fun counted => ?_⟩
  · rw [vacant] at taken
    cases taken
  · have card := congrArg Multiset.card stored
    rw [Multiset.card_add, Multiset.card_singleton] at card
    rw [Counted] at counted ⊢
    rw [stored_num, counted, ← card]
    push_cast
    ring

end Overwrite

end Table

end TwoLayer
