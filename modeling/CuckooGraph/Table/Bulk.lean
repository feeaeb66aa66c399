import CuckooGraph.Table.Kick

/-! # Inserting the items of one table into others

A series of insertions hands back what was kicked out, in that order. When two
tables share the items of a third, an item goes to the first of them while it
has room.
-/

namespace TwoLayer

variable {α : Type} {w : Nat}

/-- The table after a series of insertions, the draws used up, and the items
    left without a place in the order in which they were kicked out. -/
structure Bulk (w : Nat) (α : Type) where
  table : Table w α
  draws : Nat
  left : List α

/-- Two tables which have taken the items of a third. -/
structure Poured (w : Nat) (α : Type) where
  base : Table w α
  other : Table w α
  draws : Nat
  left : List α

namespace Table

/-- The stored items in the order of a scan. -/
def items (H : Cells α) (t : Table w α) : List α := t.cells.filter fun x => !H.free x

section

variable (H : Cells α) (times : Nat) (rand : Nat → Nat)

def insertAll : List α → Table w α → Nat → Bulk w α
  | [], t, draws => ⟨t, draws, []⟩
  | x :: xs, t, draws =>
      let one := t.insert H times rand draws x
      let rest := insertAll xs one.table one.draws
      { rest with left := one.left.toList ++ rest.left }

/-- Pour items into `base` while it has `room`, else into `other`. An item whose
    insertion into `base` leaves another one homeless is inserted into `other`
    as well. -/
def pour (room : Table w α → Bool) : List α → Table w α → Table w α → Nat → Poured w α
  | [], base, other, draws => ⟨base, other, draws, []⟩
  | x :: xs, base, other, draws =>
      if room base then
        let first := base.insert H times rand draws x
        match first.left with
        | none => pour room xs first.table other first.draws
        | some _ =>
            let second := other.insert H times rand first.draws x
            let rest := pour room xs first.table second.table second.draws
            { rest with left := second.left.toList ++ rest.left }
      else
        let second := other.insert H times rand draws x
        let rest := pour room xs base second.table second.draws
        { rest with left := second.left.toList ++ rest.left }

/-- No insertion into `base` leaves an item homeless while pouring. -/
def PourClean (room : Table w α → Bool) : List α → Table w α → Table w α → Nat → Prop
  | [], _, _, _ => True
  | x :: xs, base, other, draws =>
      if room base then
        let first := base.insert H times rand draws x
        first.left = none ∧ PourClean room xs first.table other first.draws
      else
        let second := other.insert H times rand draws x
        PourClean room xs base second.table second.draws

instance decidablePourClean (room : Table w α → Bool) : ∀ (xs : List α) (base other : Table w α) (draws : Nat),
    Decidable (PourClean H times rand room xs base other draws)
  | [], _, _, _ => isTrue trivial
  | x :: xs, base, other, draws =>
      have := decidablePourClean room xs
      inferInstanceAs (Decidable (if room base then
        (base.insert H times rand draws x).left = none ∧
          PourClean H times rand room xs (base.insert H times rand draws x).table other
            (base.insert H times rand draws x).draws
        else PourClean H times rand room xs base (other.insert H times rand draws x).table
          (other.insert H times rand draws x).draws))

end

section Items

variable {H : Cells α} {t : Table w α}

theorem mem_items {c : α} : c ∈ t.items H ↔ c ∈ t.cells ∧ H.free c = false := by simp [items]

theorem coe_items : (↑(t.items H) : Multiset α) = t.stored H := by
  rw [stored, Cells.occupied, Multiset.filter_coe]
  exact congrArg _ (List.filter_congr fun x _ => by cases H.free x <;> rfl)

end Items

/-- `Takes H t xs t'`: `t'` comes from `t` by insertions of items among `xs`. -/
structure Takes (H : Cells α) (t : Table w α) (xs : List α) (t' : Table w α) : Prop where
  size : SameSize t t'
  cells : ∀ c ∈ t'.cells, c ∈ t.cells ∨ c ∈ xs
  placed : t.Placed H → t'.Placed H

namespace Takes

variable {H : Cells α} {t t' t'' : Table w α} {xs ys : List α} {x : α}

theorem refl : Takes H t xs t := ⟨.refl t, fun _ => .inl, id⟩

theorem of_settled {r : Outcome w α} (h : Settled H t x r) : Takes H t [x] r.table :=
  ⟨h.size, fun c hc => by simpa using h.cells c hc, h.placed⟩

theorem trans (h : Takes H t xs t') (h' : Takes H t' ys t'') (le : xs ⊆ ys) : Takes H t ys t'' := by
  refine ⟨h.size.trans h'.size, fun c hc => ?_, fun placed => h'.placed (h.placed placed)⟩
  rcases h'.cells c hc with hc | hc
  · exact (h.cells c hc).imp_right fun member => le member
  · exact .inr hc

theorem mono (h : Takes H t xs t') (le : xs ⊆ ys) : Takes H t ys t' :=
  ⟨h.size, fun c hc => (h.cells c hc).imp_right fun member => le member, h.placed⟩

/-- One insertion, then the rest of a series. -/
theorem cons (h : Takes H t [x] t') (h' : Takes H t' xs t'') : Takes H t (x :: xs) t'' :=
  h.trans (h'.mono (List.subset_cons_self x xs)) (by simp)

end Takes

section One

variable {H : Cells α} {t : Table w α} {x : α} {r : Outcome w α}

theorem Settled.counted (h : Settled H t x r) (apart : H.Apart (x ::ₘ t.stored H))
    (counted : t.Counted H) : r.table.Counted H := by
  have num := h.num apart
  have card := congrArg Multiset.card (h.stored apart)
  simp only [Multiset.card_add, Multiset.coe_card, Multiset.card_singleton] at card
  simp only [Counted] at counted ⊢
  omega

/-- The items of the table and the homeless one are those of before, and `x`. -/
theorem Settled.together (h : Settled H t x r) (apart : H.Apart (x ::ₘ t.stored H)) :
    ↑r.left.toList + r.table.stored H = x ::ₘ t.stored H := by
  rw [add_comm, h.stored apart, add_comm, Multiset.singleton_add]

/-- With fewer items than a bucket has cells, no bucket is full. -/
theorem insert_room (ready : t.Ready) (room : (t.stored H).card < w) (times : Nat) (rand : Nat → Nat)
    (draws : Nat) : (t.insert H times rand draws x).left = none := by
  have notFull : Layer.put H (H.hash true) (t.side true) x ≠ .full := by
    intro full
    have inside := Layer.pos_lt (H.hash true) (ready true) x
    have cells := Layer.put_full full
    rw [Layer.bucketAt_eq inside] at cells
    have within : (t.side true)[Layer.pos (H.hash true) (t.side true) x].cells.Sublist t.cells :=
      (Layer.cells_sublist inside).trans (List.sublist_append_left _ _)
    have filled := Multiset.card_le_card (Multiset.filter_le_filter (fun c => H.free c = false)
      (Multiset.coe_le.mpr within.subperm))
    rw [Multiset.filter_eq_self.mpr cells, Multiset.coe_card, Bucket.size] at filled
    exact absurd room (not_lt.mpr filled)
  unfold insert
  split
  · rfl
  · rfl
  · contradiction

end One

/-- The spec of a series of insertions; compare `Settled`. -/
structure AllSettled (H : Cells α) (t : Table w α) (xs : List α) (r : Bulk w α) : Prop
    extends Takes H t xs r.table where
  left : ∀ c ∈ r.left, (c ∈ t.cells ∨ c ∈ xs) ∧ H.free c = false
  stored : H.Apart (t.stored H + ↑xs) → r.table.stored H + ↑r.left = t.stored H + ↑xs
  num : H.Apart (t.stored H + ↑xs) → r.table.num + r.left.length = t.num + xs.length
  short : r.left.length ≤ xs.length

section All

variable {H : Cells α} (law : H.Lawful) (hw : 0 < w) (times : Nat) (rand : Nat → Nat)

include law hw

theorem insertAll_settled {xs : List α} (hxs : ∀ x ∈ xs, H.free x = false) {t : Table w α}
    (ready : t.Ready) (draws : Nat) :
    AllSettled H t xs (insertAll H times rand xs t draws) := by
  induction xs generalizing t draws with
  | nil =>
      exact ⟨.refl, by simp [insertAll], fun _ => rfl, fun _ => rfl, le_refl _⟩
  | cons x xs ih =>
      have one := insert_settled law hw ready times rand draws (hxs x List.mem_cons_self)
      have rest := ih (fun y hy => hxs y (List.mem_cons_of_mem x hy)) (one.size.ready ready)
        (t.insert H times rand draws x).draws
      have origin : ∀ c, c ∈ (t.insert H times rand draws x).table.cells ∨ c ∈ xs →
          c ∈ t.cells ∨ c ∈ x :: xs := by
        rintro c (hc | hc)
        · rcases one.cells c hc with hc | rfl
          · exact .inl hc
          · exact .inr List.mem_cons_self
        · exact .inr (List.mem_cons_of_mem x hc)
      have split : H.Apart (t.stored H + ↑(x :: xs)) → H.Apart (x ::ₘ t.stored H) ∧
          H.Apart ((t.insert H times rand draws x).table.stored H + ↑xs) := by
        intro apart
        have regroup : t.stored H + ↑(x :: xs) = (x ::ₘ t.stored H) + ↑xs := by
          rw [← Multiset.cons_coe, Multiset.add_cons, Multiset.cons_add]
        rw [regroup] at apart
        have here := apart.mono (Multiset.le_add_right _ _)
        refine ⟨here, apart.mono ?_⟩
        rw [← one.together here]
        exact add_le_add (Multiset.le_add_left _ _) (le_refl _)
      refine ⟨(Takes.of_settled one).cons rest.toTakes, ?_, fun apart => ?_, fun apart => ?_, ?_⟩
      · intro c hc
        rcases List.mem_append.mp hc with hc | hc
        · obtain ⟨before | rfl, free⟩ := one.left c (Option.mem_toList.mp hc)
          · exact ⟨.inl before, free⟩
          · exact ⟨.inr List.mem_cons_self, free⟩
        · exact ⟨origin c (rest.left c hc).1, (rest.left c hc).2⟩
      · obtain ⟨here, later⟩ := split apart
        have first := one.stored here
        have tail := rest.stored later
        simp only [insertAll, ← Multiset.coe_add, ← Multiset.cons_coe, ← Multiset.singleton_add]
        calc _ = ((insertAll H times rand xs (t.insert H times rand draws x).table
                    (t.insert H times rand draws x).draws).table.stored H +
                  ↑(insertAll H times rand xs (t.insert H times rand draws x).table
                    (t.insert H times rand draws x).draws).left) +
                ↑(t.insert H times rand draws x).left.toList := by ac_rfl
          _ = ((t.insert H times rand draws x).table.stored H +
                ↑(t.insert H times rand draws x).left.toList) + ↑xs := by rw [tail]; ac_rfl
          _ = _ := by rw [first]; ac_rfl
      · obtain ⟨here, later⟩ := split apart
        have first := one.num here
        have tail := rest.num later
        simp only [insertAll, List.length_append, List.length_cons]
        omega
      · have single : (t.insert H times rand draws x).left.toList.length ≤ 1 := by
          cases (t.insert H times rand draws x).left <;> simp
        have tail := rest.short
        simp only [insertAll, List.length_append, List.length_cons]
        omega

/-- A new table takes at least one item of a series. -/
theorem insertAll_lt {xs : List α} (hxs : ∀ x ∈ xs, H.free x = false) (nonempty : xs ≠ [])
    {t : Table w α} (ready : t.Ready) (vacant : t.stored H = 0) (draws : Nat) :
    (insertAll H times rand xs t draws).left.length < xs.length := by
  cases xs with
  | nil => contradiction
  | cons x xs =>
      have one := insert_settled law hw ready times rand draws (hxs x List.mem_cons_self)
      have rest := insertAll_settled law hw times rand
        (fun y hy => hxs y (List.mem_cons_of_mem x hy)) (one.size.ready ready)
        (t.insert H times rand draws x).draws
      have room : (t.stored H).card < w := by rwa [vacant, Multiset.card_zero]
      have settled := insert_room (x := x) ready room times rand draws
      have tail := rest.short
      simp only [insertAll, settled, Option.toList_none, List.nil_append, List.length_cons]
      omega

/-- As many items as a bucket has cells fit into any table. -/
theorem insertAll_fit {xs : List α} (hxs : ∀ x ∈ xs, H.free x = false) {t : Table w α}
    (ready : t.Ready) (apart : H.Apart (t.stored H + ↑xs)) (room : (t.stored H).card + xs.length ≤ w)
    (draws : Nat) : (insertAll H times rand xs t draws).left = [] := by
  induction xs generalizing t draws with
  | nil => rfl
  | cons x xs ih =>
      have one := insert_settled law hw ready times rand draws (hxs x List.mem_cons_self)
      have regroup : t.stored H + ↑(x :: xs) = x ::ₘ t.stored H + ↑xs := by
        rw [← Multiset.cons_coe, Multiset.add_cons, Multiset.cons_add]
      rw [regroup] at apart
      rw [List.length_cons] at room
      have first : (t.insert H times rand draws x).left = none :=
        insert_room ready (by omega) times rand draws
      have together := one.together (apart.mono (Multiset.le_add_right _ _))
      rw [first, Option.toList_none, Multiset.coe_nil, zero_add] at together
      have card := congrArg Multiset.card together
      rw [Multiset.card_cons] at card
      have rest := ih (fun y hy => hxs y (List.mem_cons_of_mem x hy)) (one.size.ready ready)
        (together ▸ apart) (by omega) (t.insert H times rand draws x).draws
      simp only [insertAll, first, rest, Option.toList_none, List.append_nil]

end All

/-- The last insertion of a series. -/
theorem insertAll_append_singleton (H : Cells α) (times : Nat) (rand : Nat → Nat) (xs : List α) (x : α)
    (t : Table w α) (draws : Nat) :
    insertAll H times rand (xs ++ [x]) t draws =
      let before := insertAll H times rand xs t draws
      let last := before.table.insert H times rand before.draws x
      ⟨last.table, last.draws, before.left ++ last.left.toList⟩ := by
  induction xs generalizing t draws with
  | nil => simp [insertAll]
  | cons y ys ih => simp [insertAll, ih]

section AllCounted

variable {H : Cells α} {t : Table w α} {xs : List α} {r : Bulk w α}

theorem AllSettled.counted (h : AllSettled H t xs r) (apart : H.Apart (t.stored H + ↑xs))
    (counted : t.Counted H) : r.table.Counted H := by
  have num := h.num apart
  have card := congrArg Multiset.card (h.stored apart)
  simp only [Multiset.card_add, Multiset.coe_card] at card
  simp only [Counted] at counted ⊢
  omega

end AllCounted

/-- What always holds of pouring: either table takes items of the third only. -/
structure PourSettled (H : Cells α) (base other : Table w α) (xs : List α) (r : Poured w α) :
    Prop where
  toBase : Takes H base xs r.base
  toOther : Takes H other xs r.other
  left : ∀ c ∈ r.left, (c ∈ other.cells ∨ c ∈ xs) ∧ H.free c = false

section Pour

variable {H : Cells α} (law : H.Lawful) (hw : 0 < w) (times : Nat) (rand : Nat → Nat)
  {room : Table w α → Bool}

include law hw

theorem pour_settled {xs : List α} (hxs : ∀ x ∈ xs, H.free x = false) {base other : Table w α}
    (ready : base.Ready) (ready' : other.Ready) (draws : Nat) :
    PourSettled H base other xs (pour H times rand room xs base other draws) := by
  induction xs generalizing base other draws with
  | nil => exact ⟨.refl, .refl, by simp [pour]⟩
  | cons x xs ih =>
      have hx := hxs x List.mem_cons_self
      have later := fun y hy => hxs y (List.mem_cons_of_mem x hy)
      have one := insert_settled law hw ready times rand draws hx
      -- the insertion into `other`, at whatever draw it is made
      have two := fun n => insert_settled law hw ready' times rand n hx
      have handed : ∀ {n c} {left : List α},
          (∀ c ∈ left, (c ∈ (other.insert H times rand n x).table.cells ∨ c ∈ xs) ∧ H.free c = false) →
          c ∈ (other.insert H times rand n x).left.toList ++ left →
          (c ∈ other.cells ∨ c ∈ x :: xs) ∧ H.free c = false := by
        intro n c left rest hc
        rcases List.mem_append.mp hc with hc | hc
        · obtain ⟨before | rfl, free⟩ := (two n).left c (Option.mem_toList.mp hc)
          · exact ⟨.inl before, free⟩
          · exact ⟨.inr List.mem_cons_self, free⟩
        · obtain ⟨before | before, free⟩ := rest c hc
          · rcases (two n).cells c before with before | rfl
            · exact ⟨.inl before, free⟩
            · exact ⟨.inr List.mem_cons_self, free⟩
          · exact ⟨.inr (List.mem_cons_of_mem x before), free⟩
      unfold pour
      split
      · dsimp only
        split
        · have rest := ih later (one.size.ready ready) ready' (base.insert H times rand draws x).draws
          exact ⟨(Takes.of_settled one).cons rest.toBase, rest.toOther.mono (List.subset_cons_self x xs),
            fun c hc => ⟨(rest.left c hc).1.imp_right (List.mem_cons_of_mem x), (rest.left c hc).2⟩⟩
        · have second := two (base.insert H times rand draws x).draws
          have rest := ih later (one.size.ready ready) (second.size.ready ready')
            (other.insert H times rand (base.insert H times rand draws x).draws x).draws
          exact ⟨(Takes.of_settled one).cons rest.toBase, (Takes.of_settled second).cons rest.toOther,
            fun c hc => handed rest.left hc⟩
      · have rest := ih later ready ((two draws).size.ready ready')
          (other.insert H times rand draws x).draws
        exact ⟨rest.toBase.mono (List.subset_cons_self x xs),
          (Takes.of_settled (two draws)).cons rest.toOther, fun c hc => handed rest.left hc⟩

/-- If no insertion into `base` fails, pouring neither loses nor doubles an item
    and either count stays right. -/
theorem pour_stored {xs : List α} (hxs : ∀ x ∈ xs, H.free x = false) {base other : Table w α}
    (ready : base.Ready) (ready' : other.Ready) {draws : Nat}
    (clean : PourClean H times rand room xs base other draws)
    (apart : H.Apart (base.stored H + other.stored H + ↑xs)) :
    let r := pour H times rand room xs base other draws
    r.base.stored H + r.other.stored H + ↑r.left = base.stored H + other.stored H + ↑xs ∧
      (base.Counted H → r.base.Counted H) ∧ (other.Counted H → r.other.Counted H) := by
  induction xs generalizing base other draws with
  | nil => exact ⟨rfl, id, id⟩
  | cons x xs ih =>
      have hx := hxs x List.mem_cons_self
      have later := fun y hy => hxs y (List.mem_cons_of_mem x hy)
      have regroup : base.stored H + other.stored H + ↑(x :: xs) =
          (x ::ₘ base.stored H) + (other.stored H + ↑xs) := by
        rw [← Multiset.cons_coe, Multiset.add_cons, Multiset.cons_add, add_assoc]
      have regroup' : base.stored H + other.stored H + ↑(x :: xs) =
          (x ::ₘ other.stored H) + (base.stored H + ↑xs) := by
        rw [← Multiset.cons_coe, Multiset.add_cons, Multiset.cons_add, ← add_assoc,
          add_comm (base.stored H)]
      simp only [PourClean] at clean
      simp only [pour]
      split at clean
      · rename_i here
        obtain ⟨settled, clean⟩ := clean
        have one := insert_settled law hw ready times rand draws hx
        rw [regroup] at apart ⊢
        have first := apart.mono (Multiset.le_add_right _ _)
        have took := one.together first
        rw [settled, Option.toList_none, Multiset.coe_nil, zero_add] at took
        rw [← took, ← add_assoc] at apart ⊢
        obtain ⟨stored, counted, counted'⟩ := ih later (one.size.ready ready) ready' clean apart
        simp only [here, if_true, settled]
        exact ⟨stored, fun c => counted (one.counted first c), counted'⟩
      · rename_i here
        have two := insert_settled law hw ready' times rand draws hx
        rw [regroup'] at apart ⊢
        have first := apart.mono (Multiset.le_add_right _ _)
        rw [← two.together first] at apart ⊢
        have smaller : H.Apart (base.stored H +
            (other.insert H times rand draws x).table.stored H + ↑xs) := by
          refine apart.mono ?_
          rw [add_assoc, add_left_comm, add_assoc]
          exact Multiset.le_add_left _ _
        obtain ⟨stored, counted, counted'⟩ :=
          ih later ready (two.size.ready ready') clean smaller
        simp only [here, if_false, Bool.false_eq_true]
        refine ⟨?_, counted, fun c => counted' (two.counted first c)⟩
        rw [← Multiset.coe_add, add_left_comm, stored]
        ac_rfl

end Pour

end Table

end TwoLayer
