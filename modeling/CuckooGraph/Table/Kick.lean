import CuckooGraph.Table.Layer

/-! # Two-layer tables and their kick chains

An item is tried in the first layer, then in the second. When both its buckets
are full, it takes the place of a victim, the victim is tried in the other
layer, and so on for a bounded number of times; the item homeless at the end is
handed back to the caller. Whatever the draws are, a chain moves items but
neither makes nor loses one.
-/

namespace TwoLayer

variable {α : Type} {w : Nat}

/-- Two layers and a hand-kept count of the occupied cells. -/
structure Table (w : Nat) (α : Type) where
  layer1 : Layer w α
  layer2 : Layer w α
  num : Int
  deriving DecidableEq

/-- The table after an insertion, the number of draws used up so far, and the
    item without a place, if one is left. -/
structure Outcome (w : Nat) (α : Type) where
  table : Table w α
  draws : Nat
  left : Option α

namespace Table

def new (H : Cells α) (l1 l2 : Nat) : Table w α := ⟨Layer.blank H l1, Layer.blank H l2, 0⟩

def len1 (t : Table w α) : Nat := t.layer1.length

def len2 (t : Table w α) : Nat := t.layer2.length

/-- The layer a kick of the given direction takes its victim from. -/
def side (t : Table w α) : Bool → Layer w α
  | true => t.layer1
  | false => t.layer2

def withSide (t : Table w α) : Bool → Layer w α → Table w α
  | true, l => { t with layer1 := l }
  | false, l => { t with layer2 := l }

/-- All cells in the order of a scan: the first layer, then the second. -/
def cells (t : Table w α) : List α := Layer.cells t.layer1 ++ Layer.cells t.layer2

/-- The multiset of the stored items. -/
def stored (H : Cells α) (t : Table w α) : Multiset α := H.occupied ↑t.cells

/-- Every stored item is in the bucket its layer's hash names. -/
def Placed (H : Cells α) (t : Table w α) : Prop :=
  ∀ flag, Layer.Placed H (H.hash flag) (t.side flag)

/-- No layer is empty, so every bucket index is a proper remainder. -/
def Ready (t : Table w α) : Prop := ∀ flag, 0 < (t.side flag).length

/-- The count is that of the occupied cells. -/
def Counted (H : Cells α) (t : Table w α) : Prop := t.num = (t.stored H).card

/-- `SameSize t t'`: the layers have as many buckets as before. -/
def SameSize (t t' : Table w α) : Prop := ∀ flag, (t'.side flag).length = (t.side flag).length

/-- Kicks in alternating directions, at most `times` of them. `ins` is the
    homeless item and `flag` says that its next place is in the first layer. -/
def kickLoop (H : Cells α) (rand : Nat → Nat) :
    Nat → Bool → Table w α → Nat → α → Outcome w α
  | 0, _, t, draws, ins => ⟨t, draws, some ins⟩
  | times + 1, flag, t, draws, ins =>
      let pos := Layer.pos (H.hash flag) (t.side flag) ins
      let xx := rand draws
      let bucket := Layer.bucketAt H (t.side flag) pos
      let kick := bucket.victim H xx
      let t := t.withSide flag ((t.side flag).set pos (bucket.set (xx % w) ins))
      match Layer.put H (H.hash !flag) (t.side !flag) kick with
      | .stored l => ⟨{ t.withSide (!flag) l with num := t.num + 1 }, draws + 1, none⟩
      | .present => ⟨t, draws + 1, none⟩
      | .full => kickLoop H rand times (!flag) t (draws + 1) kick

/-- Try the first layer, then the second, then kick. -/
def insert (H : Cells α) (times : Nat) (rand : Nat → Nat) (t : Table w α) (draws : Nat) (item : α) :
    Outcome w α :=
  match Layer.put H (H.hash true) t.layer1 item with
  | .stored l => ⟨{ t with layer1 := l, num := t.num + 1 }, draws, none⟩
  | .present => ⟨t, draws, none⟩
  | .full =>
      match Layer.put H (H.hash false) t.layer2 item with
      | .stored l => ⟨{ t with layer2 := l, num := t.num + 1 }, draws, none⟩
      | .present => ⟨t, draws, none⟩
      | .full => kickLoop H rand times true t draws item

section Sides

variable {H : Cells α} (t : Table w α) (flag : Bool) (l : Layer w α)

@[simp] theorem side_withSide : (t.withSide flag l).side flag = l := by cases flag <;> rfl

@[simp] theorem side_withSide_not : (t.withSide flag l).side (!flag) = t.side (!flag) := by
  cases flag <;> rfl

@[simp] theorem num_withSide : (t.withSide flag l).num = t.num := by cases flag <;> rfl

@[simp] theorem side_num (n : Int) : ({ t with num := n } : Table w α).side flag = t.side flag := by
  cases flag <;> rfl

theorem stored_sides : t.stored H =
    H.occupied ↑(Layer.cells (t.side flag)) + H.occupied ↑(Layer.cells (t.side !flag)) := by
  cases flag
  · exact (congrArg H.occupied (Multiset.coe_add _ _).symm).trans
      ((Cells.occupied_add _ _).trans (add_comm _ _))
  · exact (congrArg H.occupied (Multiset.coe_add _ _).symm).trans (Cells.occupied_add _ _)

@[simp] theorem stored_num (n : Int) :
    ({ t with num := n } : Table w α).stored H = t.stored H := rfl

theorem mem_cells_sides {c : α} :
    c ∈ t.cells ↔ c ∈ Layer.cells (t.side flag) ∨ c ∈ Layer.cells (t.side !flag) := by
  cases flag
  · simp [cells, side, or_comm]
  · simp [cells, side]

theorem mem_stored {c : α} : c ∈ t.stored H ↔ c ∈ t.cells ∧ H.free c = false := by
  simp [stored]

theorem counted_iff : t.Counted H ↔ t.num = t.cells.countP fun c => !H.free c := by
  have same : (fun c => decide (H.free c = false)) = fun c => !H.free c := by
    funext c
    cases H.free c <;> rfl
  rw [Counted, stored, Cells.occupied, ← Multiset.countP_eq_card_filter, Multiset.coe_countP, same]

theorem SameSize.refl : SameSize t t := fun _ => rfl

theorem SameSize.trans {t t' t'' : Table w α} (h : SameSize t t') (h' : SameSize t' t'') :
    SameSize t t'' := fun flag => (h' flag).trans (h flag)

theorem SameSize.ready {t t' : Table w α} (h : SameSize t t') (ready : t.Ready) : t'.Ready :=
  fun flag => (h flag).symm ▸ ready flag

theorem ready_of_len {t : Table w α} (h1 : 0 < t.len1) (h2 : 0 < t.len2) : t.Ready := by
  intro flag
  cases flag
  · exact h2
  · exact h1

theorem SameSize.len1 {t t' : Table w α} (h : SameSize t t') : t'.len1 = t.len1 := h true

theorem SameSize.len2 {t t' : Table w α} (h : SameSize t t') : t'.len2 = t.len2 := h false

end Sides

section New

variable {H : Cells α} (law : H.Lawful) (l1 l2 : Nat)

@[simp] theorem new_len1 : (new H l1 l2 : Table w α).len1 = l1 := Layer.length_blank l1

@[simp] theorem new_len2 : (new H l1 l2 : Table w α).len2 = l2 := Layer.length_blank l2

theorem new_ready (H : Cells α) {l1 l2 : Nat} (p1 : 0 < l1) (p2 : 0 < l2) : (new H l1 l2 : Table w α).Ready :=
  ready_of_len (p1.trans_eq (new_len1 l1 l2).symm) (p2.trans_eq (new_len2 l1 l2).symm)

theorem mem_new {c : α} (h : c ∈ (new H l1 l2 : Table w α).cells) : c = H.zero := by
  rcases List.mem_append.mp h with h | h
  · exact Layer.mem_blank h
  · exact Layer.mem_blank h

include law

@[simp] theorem stored_new : (new H l1 l2 : Table w α).stored H = 0 := by
  rw [stored_sides _ true]
  simp [new, side, Layer.occupied_blank law]

theorem placed_new : (new H l1 l2 : Table w α).Placed H := by
  intro flag
  cases flag <;> exact Layer.placed_blank law _

theorem counted_new : (new H l1 l2 : Table w α).Counted H := by
  rw [Counted, stored_new law]
  rfl

end New

/-- What an insertion of `item` into `t` has come to. The conservation law needs
    that no item is the same as another one; the rest holds of any table. -/
structure Settled (H : Cells α) (t : Table w α) (item : α) (r : Outcome w α) : Prop where
  size : SameSize t r.table
  cells : ∀ c ∈ r.table.cells, c ∈ t.cells ∨ c = item
  left : ∀ c ∈ r.left, (c ∈ t.cells ∨ c = item) ∧ H.free c = false
  placed : t.Placed H → r.table.Placed H
  stored : H.Apart (item ::ₘ t.stored H) →
    r.table.stored H + ↑r.left.toList = t.stored H + {item}
  num : H.Apart (item ::ₘ t.stored H) → r.table.num + r.left.toList.length = t.num + 1

/-- The state of a chain which began with `item` and the table `t₀`, and whose
    homeless item is `ins` now. -/
structure Moved (H : Cells α) (t₀ : Table w α) (item : α) (t : Table w α) (ins : α) : Prop where
  size : SameSize t₀ t
  cells : ∀ c ∈ t.cells, c ∈ t₀.cells ∨ c = item
  origin : ins ∈ t₀.cells ∨ ins = item
  occupied : H.free ins = false
  placed : t₀.Placed H → t.Placed H
  stored : t.stored H + {ins} = t₀.stored H + {item}
  num : t.num = t₀.num

/-- In addition the bucket `ins` is to be kicked into is full. -/
structure Chain (H : Cells α) (t₀ : Table w α) (item : α) (flag : Bool) (t : Table w α)
    (ins : α) : Prop extends Moved H t₀ item t ins where
  full : ∀ c ∈ (Layer.bucketAt H (t.side flag) (Layer.pos (H.hash flag) (t.side flag) ins)).cells,
    H.free c = false

section Chains

variable {H : Cells α} {t₀ t : Table w α} {item ins : α} {flag : Bool}

/-- The table and the victim after one kick. -/
def swap (H : Cells α) (t : Table w α) (flag : Bool) (xx : Nat) (ins : α) : Table w α :=
  t.withSide flag ((t.side flag).set (Layer.pos (H.hash flag) (t.side flag) ins)
    ((Layer.bucketAt H (t.side flag) (Layer.pos (H.hash flag) (t.side flag) ins)).set (xx % w) ins))

def kicked (H : Cells α) (t : Table w α) (flag : Bool) (xx : Nat) (ins : α) : α :=
  (Layer.bucketAt H (t.side flag) (Layer.pos (H.hash flag) (t.side flag) ins)).victim H xx

/-- One pass of the loop. -/
theorem kickLoop_succ (rand : Nat → Nat) (times draws : Nat) (flag : Bool) (t : Table w α) (ins : α) :
    kickLoop H rand (times + 1) flag t draws ins =
      match Layer.put H (H.hash !flag) (t.side !flag) (kicked H t flag (rand draws) ins) with
      | .stored l => ⟨{ (Table.swap H t flag (rand draws) ins).withSide (!flag) l with
          num := (Table.swap H t flag (rand draws) ins).num + 1 }, draws + 1, none⟩
      | .present => ⟨Table.swap H t flag (rand draws) ins, draws + 1, none⟩
      | .full => kickLoop H rand times (!flag) (Table.swap H t flag (rand draws) ins) (draws + 1)
          (kicked H t flag (rand draws) ins) := by
  simp only [kickLoop, side_withSide_not]
  rfl

/-- The homeless item is never the same as a stored one. -/
theorem Moved.unseen (h : Moved H t₀ item t ins) (apart : H.Apart (item ::ₘ t₀.stored H)) :
    ∀ c ∈ t.cells, H.free c = false → H.same ins c = false := by
  intro c hc free
  have all : ins ::ₘ t.stored H = item ::ₘ t₀.stored H := by
    simpa only [← Multiset.singleton_add, add_comm] using h.stored
  rw [← all] at apart
  exact apart.of_mem ((mem_stored t).mpr ⟨hc, free⟩)

/-- The homeless item finds a free cell. -/
theorem Moved.stored_settled (h : Moved H t₀ item t ins) {side : Bool} {l : Layer w α} {draws : Nat}
    (room : 0 < (t.side side).length)
    (tried : Layer.put H (H.hash side) (t.side side) ins = .stored l) :
    Settled H t₀ item ⟨{ t.withSide side l with num := t.num + 1 }, draws, none⟩ := by
  refine ⟨?_, ?_, by simp, ?_, fun _ => ?_, fun _ => ?_⟩
  · refine h.size.trans fun flag => ?_
    by_cases same : flag = side
    · subst same
      simp [Layer.length_put tried]
    · rw [show flag = !side by cases side <;> cases flag <;> simp_all]
      simp
  · intro c hc
    rcases (mem_cells_sides _ side).mp hc with hc | hc
    · simp only [side_num, side_withSide] at hc
      rcases Layer.mem_put room tried hc with hc | rfl
      · exact h.cells c ((mem_cells_sides t side).mpr (.inl hc))
      · exact h.origin
    · simp only [side_num, side_withSide_not] at hc
      exact h.cells c ((mem_cells_sides t side).mpr (.inr hc))
  · intro placed flag
    have before := h.placed placed
    by_cases same : flag = side
    · subst same
      simpa using Layer.placed_put room tried (before flag)
    · rw [show flag = !side by cases side <;> cases flag <;> simp_all]
      simpa using before (!side)
  · rw [← h.stored, stored_sides _ side, stored_sides t side]
    simp only [side_num, side_withSide, side_withSide_not, Layer.occupied_put room h.occupied tried,
      Option.toList_none, Multiset.coe_nil, add_zero]
    ac_rfl
  · simp [h.num]

/-- One kick: the homeless item and its victim change places. -/
theorem Chain.swapped (hw : 0 < w) (ready : t₀.Ready) (h : Chain H t₀ item flag t ins)
    (xx : Nat) : Moved H t₀ item (Table.swap H t flag xx ins) (kicked H t flag xx ins) := by
  have inside := Layer.pos_lt (H.hash flag) (h.size.ready ready flag) ins
  have atPos := Layer.bucketAt_eq (H := H) inside
  have member := Bucket.victim_mem (H := H) hw
    (Layer.bucketAt H (t.side flag) (Layer.pos (H.hash flag) (t.side flag) ins)) xx
  have free := h.full _ member
  have hit : kicked H t flag xx ins ∈ t.cells :=
    (mem_cells_sides t flag).mpr (.inl (Layer.cells_getElem inside (atPos ▸ member)))
  refine ⟨?_, ?_, h.cells _ hit, free, ?_, ?_, ?_⟩
  · refine h.size.trans fun side => ?_
    cases flag <;> cases side <;> simp [Table.swap, withSide, Table.side]
  · intro c hc
    rcases (mem_cells_sides _ flag).mp hc with hc | hc
    · simp only [Table.swap, side_withSide] at hc
      rcases Layer.mem_cells_set hc with hc | hc
      · exact h.cells c ((mem_cells_sides t flag).mpr (.inl hc))
      · rcases Bucket.mem_set hc with hc | rfl
        · exact h.cells c ((mem_cells_sides t flag).mpr
            (.inl (Layer.cells_getElem inside (atPos ▸ hc))))
        · exact h.origin
    · simp only [Table.swap, side_withSide_not] at hc
      exact h.cells c ((mem_cells_sides t flag).mpr (.inr hc))
  · intro placed side
    have before := h.placed placed
    by_cases same : side = flag
    · subst same
      simp only [Table.swap, side_withSide]
      refine (before side).set fun c hc occupied => ?_
      rcases Bucket.mem_set hc with hc | rfl
      · exact before side _ inside c (atPos ▸ hc) occupied
      · rfl
    · rw [show side = !flag by cases side <;> cases flag <;> simp_all]
      simpa only [Table.swap, side_withSide_not] using before (!flag)
  · rw [← h.stored, stored_sides _ flag, stored_sides t flag]
    simp only [Table.swap, side_withSide, side_withSide_not, kicked]
    have layer := Layer.occupied_set (H := H) inside
      ((Layer.bucketAt H (t.side flag) (Layer.pos (H.hash flag) (t.side flag) ins)).set (xx % w) ins)
    have bucket := Bucket.occupied_kick (H := H) hw
      (Layer.bucketAt H (t.side flag) (Layer.pos (H.hash flag) (t.side flag) ins)) xx ins free h.occupied
    rw [← atPos] at layer
    classical
    ext c
    have layerCount := congrArg (Multiset.count c) layer
    have bucketCount := congrArg (Multiset.count c) bucket
    simp only [Multiset.count_add] at layerCount bucketCount ⊢
    omega
  · simpa only [Table.swap, num_withSide] using h.num

theorem Moved.chain (h : Moved H t₀ item (Table.swap H t flag xx ins) kick)
    (full : ∀ c ∈ (Layer.bucketAt H (t.side !flag)
      (Layer.pos (H.hash !flag) (t.side !flag) kick)).cells, H.free c = false) :
    Chain H t₀ item (!flag) (Table.swap H t flag xx ins) kick :=
  ⟨h, by simpa only [Table.swap, side_withSide_not] using full⟩

/-- Whatever the draws are, a chain ends with every item accounted for. -/
theorem Chain.settled (law : H.Lawful) (hw : 0 < w) (ready : t₀.Ready) (rand : Nat → Nat)
    (times draws : Nat) (h : Chain H t₀ item flag t ins) :
    Settled H t₀ item (kickLoop H rand times flag t draws ins) := by
  induction times generalizing flag t draws ins with
  | zero =>
      exact ⟨h.size, h.cells, by simpa [kickLoop] using ⟨h.origin, h.occupied⟩, h.placed,
        fun _ => h.stored, fun _ => by simp [kickLoop, h.num]⟩
  | succ times ih =>
      have other : (Table.swap H t flag (rand draws) ins).side (!flag) = t.side (!flag) :=
        side_withSide_not _ _ _
      have moved := h.swapped hw ready (rand draws)
      have room : 0 < (t.side !flag).length := h.size.ready ready _
      rw [kickLoop_succ]
      cases tried : Layer.put H (H.hash !flag) (t.side !flag) (kicked H t flag (rand draws) ins) with
      | full => exact ih (draws + 1) (moved.chain (Layer.put_full tried))
      | present =>
          refine ⟨moved.size, moved.cells, by simp, moved.placed, fun apart => ?_, fun apart => ?_⟩
          all_goals
            obtain ⟨c, hc, same⟩ := Layer.put_present room tried
            have stored : c ∈ (Table.swap H t flag (rand draws) ins).cells :=
              (mem_cells_sides _ flag).mpr (.inr (other.symm ▸ hc))
            have free := law.same_free _ c moved.occupied same
            rw [moved.unseen apart c stored free] at same
            cases same
      | stored l =>
          rw [← other] at tried room
          exact moved.stored_settled room tried

/-- The spec of an insertion: each item is stored or handed back, once. -/
theorem insert_settled (law : H.Lawful) (hw : 0 < w) (ready : t₀.Ready) (times : Nat)
    (rand : Nat → Nat) (draws : Nat) (hx : H.free item = false) :
    Settled H t₀ item (t₀.insert H times rand draws item) := by
  have start : Moved H t₀ item t₀ item :=
    ⟨.refl t₀, fun _ => .inl, .inr rfl, hx, id, rfl, rfl⟩
  have seen : ∀ side, Layer.put H (H.hash side) (t₀.side side) item = .present →
      Settled H t₀ item ⟨t₀, draws, none⟩ := by
    intro side tried
    refine ⟨.refl t₀, fun _ => .inl, by simp, id, fun apart => ?_, fun apart => ?_⟩
    all_goals
      obtain ⟨c, hc, same⟩ := Layer.put_present (ready side) tried
      have free := law.same_free _ c hx same
      rw [start.unseen apart c ((mem_cells_sides t₀ side).mpr (.inl hc)) free] at same
      cases same
  unfold insert
  split
  · exact start.stored_settled (ready true) ‹_›
  · exact seen true ‹_›
  · rename_i full1
    split
    · exact start.stored_settled (ready false) ‹_›
    · exact seen false ‹_›
    · exact Chain.settled law hw ready rand times draws ⟨start, Layer.put_full full1⟩

end Chains

end Table

end TwoLayer
