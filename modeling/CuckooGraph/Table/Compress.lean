import CuckooGraph.Table.Merge

/-! # Halving a table

The lower half of either layer is kept, and the items of the upper half fall
onto the bucket half a layer below. That this is the bucket which the hash names
in the smaller layer needs a layer of even length.
-/

namespace TwoLayer

variable {α : Type} {w : Nat}

/-- The same cells, with a free cell told by the test of a scan. -/
def Cells.scan (H : Cells α) : Cells α := { H with free := H.skip }

namespace Layer

/-- Put items into buckets given by index; what finds its bucket full is queued. -/
def fill (H : Cells α) : List (α × Nat) → Layer w α → Layer w α × List α
  | [], l => (l, [])
  | (x, i) :: xs, l =>
      match (bucketAt H l i).put H x with
      | .full =>
          let rest := fill H xs l
          (rest.1, x :: rest.2)
      | .present => fill H xs l
      | .stored b => fill H xs (l.set i b)

/-- The items of the upper half, each with the bucket below that it falls onto. -/
def upper (H : Cells α) (l : Layer w α) : List (α × Nat) :=
  (l.drop (l.length / 2)).zipIdx.flatMap fun (b, i) =>
    (b.cells.filter fun x => !H.skip x).map (·, i)

/-- The lower half with the items of the upper half let fall onto it. -/
def halve (H : Cells α) (l : Layer w α) : Layer w α × List α :=
  fill H.scan (upper H l) (l.take (l.length / 2))

end Layer

/-- Halve a table. The count is the old one less the items left over. -/
def Table.compress (H : Cells α) (times : Nat) (rand : Nat → Nat) (c1 : Table w α) (draws : Nat) :
    Bulk w α :=
  let r1 := Layer.halve H c1.layer1
  let r2 := Layer.halve H c1.layer2
  let rest := Table.insertAll H times rand (r1.2 ++ r2.2) ⟨r1.1, r2.1, 0⟩ draws
  { rest with table := { rest.table with num := c1.num - rest.left.length } }

section Fill

variable {H : Cells α} {hash : α → Nat}

theorem Cells.Agree.occupied {cells : List α} (agree : H.Agree cells) :
    H.scan.occupied ↑cells = H.occupied ↑cells := by
  simp only [Cells.occupied, Multiset.filter_coe]
  refine congrArg _ (List.filter_congr fun x hx => ?_)
  rw [show H.scan.free x = H.skip x from rfl, agree x hx]

namespace Layer

/-- The spec of putting items into buckets given by index. -/
structure FillSettled (H : Cells α) (xs : List (α × Nat)) (l : Layer w α)
    (r : Layer w α × List α) : Prop where
  size : r.1.length = l.length
  cells : ∀ c ∈ Layer.cells r.1, c ∈ Layer.cells l ∨ c ∈ xs.map Prod.fst
  queue : r.2 ⊆ xs.map Prod.fst
  placed : ∀ hash : α → Nat, (∀ x ∈ xs, hash x.1 % l.length = x.2) →
    Placed H hash l → Placed H hash r.1
  stored : H.Apart (H.occupied ↑(Layer.cells l) + ↑(xs.map Prod.fst)) →
    H.occupied ↑(Layer.cells r.1) + ↑r.2 = H.occupied ↑(Layer.cells l) + ↑(xs.map Prod.fst)

theorem fill_settled (law : H.Lawful) {xs : List (α × Nat)} {l : Layer w α}
    (hxs : ∀ x ∈ xs, H.free x.1 = false ∧ x.2 < l.length) : FillSettled H xs l (fill H xs l) := by
  induction xs generalizing l with
  | nil => exact ⟨rfl, fun _ => .inl, by simp [fill], fun _ _ => id, fun _ => rfl⟩
  | cons x xs ih =>
      obtain ⟨x, i⟩ := x
      obtain ⟨hx, inside⟩ := hxs (x, i) List.mem_cons_self
      have later := fun y hy => hxs y (List.mem_cons_of_mem (x, i) hy)
      have regroup : H.occupied ↑(Layer.cells l) + ↑(((x, i) :: xs).map Prod.fst) =
          x ::ₘ (H.occupied ↑(Layer.cells l) + ↑(xs.map Prod.fst)) := by
        rw [List.map_cons, ← Multiset.cons_coe, Multiset.add_cons]
      have atIndex := bucketAt_eq (H := H) inside
      unfold fill
      cases tried : (bucketAt H l i).put H x with
      | full =>
          have rest := ih later
          refine ⟨rest.size, fun c hc => (rest.cells c hc).imp_right (List.mem_cons_of_mem x),
            List.cons_subset_cons x rest.queue,
            fun hash named => rest.placed hash fun y hy => named y (List.mem_cons_of_mem _ hy),
            fun apart => ?_⟩
          rw [regroup] at apart ⊢
          simp only [← Multiset.cons_coe, Multiset.add_cons,
            rest.stored (apart.mono (Multiset.le_cons_self _ _))]
      | present =>
          have rest := ih later
          refine ⟨rest.size, fun c hc => (rest.cells c hc).imp_right (List.mem_cons_of_mem x),
            fun c hc => List.mem_cons_of_mem x (rest.queue hc),
            fun hash named => rest.placed hash fun y hy => named y (List.mem_cons_of_mem _ hy),
            fun apart => ?_⟩
          obtain ⟨c, hc, same⟩ := Bucket.put_present tried
          rw [atIndex] at hc
          have member : c ∈ H.occupied ↑(Layer.cells l) + ↑(xs.map Prod.fst) :=
            Multiset.mem_add.mpr (.inl (Cells.mem_occupied.mpr
              ⟨cells_getElem inside hc, law.same_free x c hx same⟩))
          rw [regroup] at apart
          rw [apart.of_mem member] at same
          cases same
      | stored b =>
          have rest := ih (l := l.set i b) (by simpa only [List.length_set] using later)
          have before := tried
          rw [atIndex] at before
          obtain ⟨j, -, -, rfl⟩ := Bucket.put_stored before
          refine ⟨by simpa only [List.length_set] using rest.size, fun c hc => ?_,
            fun c hc => List.mem_cons_of_mem x (rest.queue hc), fun hash named placed => ?_,
            fun apart => ?_⟩
          · rcases rest.cells c hc with hc | hc
            · rcases mem_cells_set hc with hc | hc
              · exact .inl hc
              · rcases Bucket.mem_set hc with hc | rfl
                · exact .inl (cells_getElem inside hc)
                · exact .inr List.mem_cons_self
            · exact .inr (List.mem_cons_of_mem x hc)
          · refine rest.placed hash (fun y hy => ?_) (placed.set fun c hc occupied => ?_)
            · simpa only [List.length_set] using named y (List.mem_cons_of_mem _ hy)
            · rcases Bucket.mem_set hc with hc | rfl
              · exact placed i inside c hc occupied
              · exact named _ List.mem_cons_self
          · have took := occupied_set (H := H) inside (l[i].set j x)
            rw [Bucket.occupied_put hx before, add_comm (H.occupied ↑l[i].cells), ← add_assoc] at took
            have took := add_right_cancel took
            rw [regroup] at apart ⊢
            have moved : H.occupied ↑(Layer.cells (l.set i (l[i].set j x))) + ↑(xs.map Prod.fst) =
                x ::ₘ (H.occupied ↑(Layer.cells l) + ↑(xs.map Prod.fst)) := by
              rw [took, add_right_comm, add_comm, Multiset.singleton_add]
            rw [← moved] at apart ⊢
            exact rest.stored apart

theorem mem_upper {l : Layer w α} {x : α} {i : Nat} (h : (x, i) ∈ upper H l) :
    ∃ hi : l.length / 2 + i < l.length, x ∈ l[l.length / 2 + i].cells ∧ H.skip x = false := by
  simp only [upper, List.mem_flatMap, List.mem_map, List.mem_filter] at h
  obtain ⟨⟨b, k⟩, hb, x', ⟨hx, unskipped⟩, same⟩ := h
  obtain ⟨rfl, rfl⟩ := Prod.mk.inj same
  obtain ⟨inside, bucket⟩ := List.mem_zipIdx' hb
  have inside : k < l.length - l.length / 2 := by simpa using inside
  dsimp only at hx ⊢
  rw [bucket, List.getElem_drop] at hx
  exact ⟨by omega, hx, by simpa using unskipped⟩

theorem coe_upper {l : Layer w α} (agree : H.Agree l.cells) :
    (↑((upper H l).map Prod.fst) : Multiset α) =
      H.occupied ↑(cells (l.drop (l.length / 2))) := by
  have scanned : ∀ (k : Nat) (d : Layer w α), H.Agree d.cells →
      (↑(((d.zipIdx k).flatMap fun (b, i) =>
        (b.cells.filter fun x => !H.skip x).map (·, i)).map Prod.fst) : Multiset α) =
      H.occupied ↑(cells d) := by
    intro k d agree
    induction d generalizing k with
    | nil => rfl
    | cons b bs ih =>
        have tail := ih (k + 1) fun c hc => agree c (by
          simp only [cells, List.flatMap_cons, List.mem_append] at hc ⊢
          exact .inr hc)
        have here : (b.cells.filter fun x => !H.skip x) = b.cells.filter fun x => decide (H.free x = false) := by
          refine List.filter_congr fun x hx => ?_
          rw [agree x (by simp only [cells, List.flatMap_cons, List.mem_append]; exact .inl hx)]
          cases H.free x <;> rfl
        simp only [List.zipIdx_cons, List.flatMap_cons, List.map_append, ← Multiset.coe_add, tail,
          cells, Cells.occupied_add, List.map_map]
        rw [here]
        simp [Cells.occupied, Function.comp_def]
  refine scanned 0 _ fun c hc => agree c ?_
  simp only [cells, List.mem_flatMap] at hc ⊢
  obtain ⟨b, hb, hc⟩ := hc
  exact ⟨b, List.mem_of_mem_drop hb, hc⟩

/-- What halving a layer of even length comes to. -/
structure HalveSettled (H : Cells α) (hash : α → Nat) (l : Layer w α)
    (r : Layer w α × List α) : Prop where
  size : r.1.length = l.length / 2
  cells : ∀ c ∈ Layer.cells r.1, c ∈ Layer.cells l
  queue : ∀ c ∈ r.2, c ∈ Layer.cells l ∧ H.free c = false
  placed : Placed H hash l → Placed H hash r.1
  stored : H.Apart (H.occupied ↑(Layer.cells l)) →
    H.occupied ↑(Layer.cells r.1) + ↑r.2 = H.occupied ↑(Layer.cells l)

theorem halve_settled (law : H.scan.Lawful) {l : Layer w α} (agree : H.Agree l.cells)
    (even : l.length = l.length / 2 * 2) : HalveSettled H hash l (halve H l) := by
  have lower : ∀ c ∈ cells (l.take (l.length / 2)), c ∈ cells l := by
    intro c hc
    simp only [cells, List.mem_flatMap] at hc ⊢
    obtain ⟨b, hb, hc⟩ := hc
    exact ⟨b, List.mem_of_mem_take hb, hc⟩
  have length : (l.take (l.length / 2)).length = l.length / 2 := by
    rw [List.length_take]
    omega
  have falls : ∀ x ∈ upper H l, H.scan.free x.1 = false ∧ x.2 < (l.take (l.length / 2)).length := by
    rintro ⟨x, i⟩ hx
    obtain ⟨inside, -, unskipped⟩ := mem_upper hx
    refine ⟨unskipped, ?_⟩
    dsimp only
    omega
  have fromUpper : ∀ c ∈ (upper H l).map Prod.fst, c ∈ cells l ∧ H.free c = false := by
    intro c hc
    obtain ⟨⟨x, i⟩, hx, rfl⟩ := List.mem_map.mp hc
    obtain ⟨inside, member, unskipped⟩ := mem_upper hx
    have member := cells_getElem inside member
    exact ⟨member, agree _ member ▸ unskipped⟩
  have filled := fill_settled law falls
  have origin : ∀ c ∈ cells (halve H l).1, c ∈ cells l := fun c hc =>
    (filled.cells c hc).elim (lower c) fun hc => (fromUpper c hc).1
  have parts : H.occupied ↑(cells (l.take (l.length / 2))) + ↑((upper H l).map Prod.fst) =
      H.occupied ↑(cells l) := by
    rw [coe_upper agree, ← Cells.occupied_add, Multiset.coe_add]
    simp only [cells, ← List.flatMap_append, List.take_append_drop]
  have agreeLower : H.Agree (cells (l.take (l.length / 2))) := fun c hc => agree c (lower c hc)
  have agreeResult : H.Agree (cells (halve H l).1) := fun c hc => agree c (origin c hc)
  refine ⟨filled.size.trans length, origin, fun c hc => fromUpper c (filled.queue hc),
    fun placed => ?_, fun apart => ?_⟩
  · intro i hi x hx occupied
    refine filled.placed hash ?_ ?_ i hi x hx ((agreeResult x (cells_getElem hi hx)).trans occupied)
    · rintro ⟨x, i⟩ hx
      obtain ⟨inside, member, unskipped⟩ := mem_upper hx
      have named := placed _ inside x member (agree x (cells_getElem inside member) ▸ unskipped)
      rw [length]
      dsimp only
      have small : i < l.length / 2 := by omega
      have reduced : hash x % l.length % (l.length / 2) = hash x % (l.length / 2) := by
        rw [Nat.mod_mod_of_dvd]
        exact ⟨2, even⟩
      rw [← reduced, named, Nat.add_mod_left, Nat.mod_eq_of_lt small]
    · intro i hi x hx occupied
      have inside : i < l.length := by omega
      have atLower : (l.take (l.length / 2))[i] = l[i] := by simp
      rw [atLower] at hx
      have named := placed i inside x hx (agree x (cells_getElem inside hx) ▸ occupied)
      rw [length] at hi ⊢
      have reduced : hash x % l.length % (l.length / 2) = hash x % (l.length / 2) := by
        rw [Nat.mod_mod_of_dvd]
        exact ⟨2, even⟩
      rw [← reduced, named, Nat.mod_eq_of_lt hi]
  · have conserved := filled.stored
    rw [agreeLower.occupied, parts] at conserved
    rw [← agreeResult.occupied]
    exact conserved apart

end Layer

end Fill

namespace Table

variable {H : Cells α}

/-- The spec of halving a table. -/
structure CompressSettled (H : Cells α) (c1 : Table w α) (r : Bulk w α) : Prop where
  size : ∀ flag, (r.table.side flag).length = (c1.side flag).length / 2
  cells : ∀ c ∈ r.table.cells, c ∈ c1.cells
  left : ∀ c ∈ r.left, c ∈ c1.cells ∧ H.free c = false
  placed : c1.Placed H → r.table.Placed H
  stored : H.Apart (c1.stored H) → r.table.stored H + ↑r.left = c1.stored H
  counted : H.Apart (c1.stored H) → c1.Counted H → r.table.Counted H

theorem compress_settled (law : H.Lawful) (law' : H.scan.Lawful) (hw : 0 < w) (times : Nat)
    (rand : Nat → Nat) {c1 : Table w α} (agree : H.Agree c1.cells)
    (even : ∀ flag, (c1.side flag).length = (c1.side flag).length / 2 * 2)
    (ready : c1.Ready) (draws : Nat) :
    CompressSettled H c1 (compress H times rand c1 draws) := by
  have halves : ∀ flag, Layer.HalveSettled H (H.hash flag) (c1.side flag)
      (Layer.halve H (c1.side flag)) := fun flag =>
    Layer.halve_settled law' (agree_side agree flag) (even flag)
  let t : Table w α := ⟨(Layer.halve H (c1.side true)).1, (Layer.halve H (c1.side false)).1, 0⟩
  let queue := (Layer.halve H (c1.side true)).2 ++ (Layer.halve H (c1.side false)).2
  have sideOf : ∀ flag, t.side flag = (Layer.halve H (c1.side flag)).1 := by
    intro flag
    cases flag <;> rfl
  have queued : ∀ x ∈ queue, x ∈ c1.cells ∧ H.free x = false := by
    intro x hx
    have onSide : ∀ flag, x ∈ (Layer.halve H (c1.side flag)).2 → x ∈ c1.cells ∧ H.free x = false :=
      fun flag hx => ⟨(mem_cells_sides c1 flag).mpr (.inl ((halves flag).queue x hx).1),
        ((halves flag).queue x hx).2⟩
    exact (List.mem_append.mp hx).elim (onSide true) (onSide false)
  have readyHalf : t.Ready := by
    intro flag
    have positive := ready flag
    have whole := even flag
    rw [sideOf flag, (halves flag).size]
    omega
  have drained := insertAll_settled law hw times rand (fun x hx => (queued x hx).2) readyHalf draws
  have origin : ∀ c, c ∈ t.cells ∨ c ∈ queue → c ∈ c1.cells := by
    rintro c (hc | hc)
    · have onSide : ∀ flag, c ∈ Layer.cells (t.side flag) → c ∈ c1.cells := fun flag hc =>
        (mem_cells_sides c1 flag).mpr (.inl ((halves flag).cells c (sideOf flag ▸ hc)))
      exact ((mem_cells_sides t true).mp hc).elim (onSide true) (onSide false)
    · exact (queued c hc).1
  have together : H.Apart (c1.stored H) → t.stored H + ↑queue = c1.stored H := by
    intro apart
    have onSide : ∀ flag, H.occupied ↑(Layer.cells (t.side flag)) + ↑(Layer.halve H (c1.side flag)).2 =
        H.occupied ↑(Layer.cells (c1.side flag)) := fun flag => by
      rw [sideOf flag]
      exact (halves flag).stored (apart.mono (side_le c1 flag))
    have both := congrArg₂ (· + ·) (onSide true) (onSide false)
    rw [stored_sides t true, stored_sides c1 true, ← Multiset.coe_add]
    simp only [Bool.not_true]
    rw [← both]
    ac_rfl
  -- only the count is set after the queue is drained
  have recounted : ∀ flag, (compress H times rand c1 draws).table.side flag =
      (insertAll H times rand queue t draws).table.side flag := fun flag => side_num _ flag _
  have conserved : H.Apart (c1.stored H) →
      (compress H times rand c1 draws).table.stored H + ↑(compress H times rand c1 draws).left =
        c1.stored H := by
    intro apart
    have whole := together apart
    exact (drained.stored (whole.symm ▸ apart)).trans whole
  refine ⟨fun flag => ?_, fun c hc => origin c (drained.cells c hc),
    fun c hc => ⟨origin c (drained.left c hc).1, (drained.left c hc).2⟩, fun placed flag => ?_,
    conserved, fun apart counted => ?_⟩
  · rw [recounted flag, drained.size flag, sideOf flag, (halves flag).size]
  · rw [recounted flag]
    refine drained.placed (fun flag => ?_) flag
    rw [sideOf flag]
    exact (halves flag).placed (placed flag)
  · have card := congrArg Multiset.card (conserved apart)
    simp only [Multiset.card_add, Multiset.coe_card] at card
    simp only [Counted] at counted ⊢
    have num : (compress H times rand c1 draws).table.num =
        c1.num - (compress H times rand c1 draws).left.length := rfl
    omega

end Table

end TwoLayer
