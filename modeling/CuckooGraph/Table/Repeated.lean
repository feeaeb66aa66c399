import CuckooGraph.Table.Bulk

/-! # Insertions of repeated items

An insertion looks for its item in the second layer only if the bucket of the first
is full. It still finds every item which is stored, since what is in the second
layer has a full bucket in the first. No insertion takes an item out of a bucket
without putting another one in, so that this stays so.
-/

namespace TwoLayer

variable {α : Type} {w : Nat} {H : Cells α}

/-- Items which are the same are hashed to the same buckets. -/
structure Cells.Keyed (H : Cells α) : Prop extends H.Lawful where
  symm : ∀ x y, H.same x y = H.same y x
  hash : ∀ x y, H.same x y = true → ∀ flag, H.hash flag x = H.hash flag y

/-- A new item keeps its distance to all others. -/
theorem Cells.Keyed.apart_cons (keyed : H.Keyed) {s : Multiset α} {x : α} (apart : H.Apart s)
    (new : ∀ y ∈ s, H.same x y = false) : H.Apart (x ::ₘ s) := by
  intro a b le
  by_cases first : a = x
  · subst first
    apply new
    rw [Multiset.cons_le_cons_iff] at le
    exact Multiset.mem_of_le le (Multiset.mem_cons_self b 0)
  · by_cases second : b = x
    · subst second
      rw [keyed.symm]
      apply new
      rw [Multiset.cons_swap, Multiset.cons_le_cons_iff] at le
      exact Multiset.mem_of_le le (Multiset.mem_cons_self a 0)
    · apply apart
      refine (Multiset.le_cons_of_notMem ?_).mp le
      simp [Ne.symm first, Ne.symm second]

namespace Layer

variable {hash : α → Nat} {l l' : Layer w α} {x : α} {i : Nat}

/-- The bucket has no free cell. -/
def Full (H : Cells α) (l : Layer w α) (i : Nat) : Prop := ∀ c ∈ (bucketAt H l i).cells, H.free c = false

theorem Full.set (full : Full H l i) (hx : H.free x = false) (k j : Nat) :
    Full H (l.set k ((bucketAt H l k).set j x)) i := by
  intro c hc
  by_cases inside : k < l.length
  · by_cases here : k = i
    · subst here
      rw [bucketAt_eq (by simpa using inside), List.getElem_set_self] at hc
      cases Bucket.mem_set hc with
      | inl old => exact full c old
      | inr new => exact new ▸ hx
    · apply full c
      rwa [bucketAt, List.getD_eq_getElem?_getD, List.getElem?_set_ne here, ← List.getD_eq_getElem?_getD] at hc
  · rw [List.set_eq_of_length_le (Nat.le_of_not_lt inside)] at hc
    exact full c hc

theorem Full.put (full : Full H l i) (hx : H.free x = false) (tried : Layer.put H hash l x = .stored l') :
    Full H l' i := by
  obtain ⟨b, hb, rfl⟩ := put_stored_cases tried
  obtain ⟨j, -, -, rfl⟩ := Bucket.put_stored hb
  exact full.set hx _ j

/-- An item whose bucket does not hold it is not in its layer. -/
theorem Placed.absent (placed : Placed H hash l) (keyed : ∀ y, H.same x y = true → hash x = hash y)
    (tried : put H hash l x ≠ .present) : ∀ c ∈ cells l, H.free c = false → H.same x c = false := by
  intro c hc occupied
  obtain ⟨i, hi, hc⟩ := mem_cells.mp hc
  by_contra same
  rw [Bool.not_eq_false] at same
  have here : pos hash l x = i := by
    rw [pos, keyed c same]
    exact placed i hi c hc occupied
  apply tried
  have found : (bucketAt H l (pos hash l x)).cells.any (H.same x) = true := by
    rw [here, bucketAt_eq hi]
    exact List.any_eq_true.mpr ⟨c, hc, same⟩
  rw [put, Bucket.put, if_pos found]
  rfl

end Layer

namespace Table

variable {t t₀ : Table w α} {item ins x : α} {flag : Bool}

/-- The bucket of `x` in the first layer is full. -/
def Filled (H : Cells α) (t : Table w α) (x : α) : Prop :=
  Layer.Full H t.layer1 (Layer.pos (H.hash true) t.layer1 x)

/-- What is in the second layer has a full bucket in the first. -/
def Backed (H : Cells α) (t : Table w α) : Prop :=
  ∀ x ∈ Layer.cells t.layer2, H.free x = false → t.Filled H x

/-- Full buckets stay full, and nothing new gets into the second layer but what has
    a full bucket. -/
theorem Backed.mono (backed : t.Backed H) (t' : Table w α) (len : t'.layer1.length = t.layer1.length)
    (kept : ∀ i, Layer.Full H t.layer1 i → Layer.Full H t'.layer1 i)
    (moved : ∀ c ∈ Layer.cells t'.layer2, c ∈ Layer.cells t.layer2 ∨ t.Filled H c) :
    t'.Backed H ∧ ∀ x, t.Filled H x → t'.Filled H x := by
  have filled : ∀ x, t.Filled H x → t'.Filled H x := by
    intro x full
    simp only [Filled, Layer.pos, len] at full ⊢
    exact kept _ full
  refine ⟨fun x hx occupied => filled x ?_, filled⟩
  cases moved x hx with
  | inl old => exact backed x old occupied
  | inr full => exact full

/-- An item which is not taken by the first layer, or by either. -/
theorem Backed.put (backed : t.Backed H) (ready : t.Ready) (hx : H.free x = false) (flag : Bool) {l : Layer w α}
    {n : Int} (filled : flag = false → t.Filled H x) (tried : Layer.put H (H.hash flag) (t.side flag) x = .stored l) :
    ({ t.withSide flag l with num := n } : Table w α).Backed H := by
  cases flag with
  | true =>
      exact (backed.mono ⟨l, t.layer2, n⟩ (Layer.length_put tried) (fun i full => Layer.Full.put full hx tried)
        fun c hc => .inl hc).1
  | false =>
      refine (backed.mono ⟨t.layer1, l, n⟩ rfl (fun i full => full) fun c hc => ?_).1
      cases Layer.mem_put (ready false) tried hc with
      | inl old => exact .inl old
      | inr new => exact .inr (new ▸ filled rfl)

/-- A kick. The victim of either layer has a full bucket in the first. -/
theorem Chain.backed (hw : 0 < w) (ready : t₀.Ready) (chain : Chain H t₀ item flag t ins)
    (placed : t.Placed H) (backed : t.Backed H) (filled : t.Filled H ins) (xx : Nat) :
    (Table.swap H t flag xx ins).Backed H ∧ (Table.swap H t flag xx ins).Filled H (kicked H t flag xx ins) := by
  have inside := Layer.pos_lt (H.hash flag) (chain.size.ready ready flag) ins
  have atPos := Layer.bucketAt_eq (H := H) inside
  have member := Bucket.victim_mem (H := H) hw
    (Layer.bucketAt H (t.side flag) (Layer.pos (H.hash flag) (t.side flag) ins)) xx
  have occupied := chain.full _ member
  rw [atPos] at member
  cases flag with
  | true =>
      have swapped := backed.mono (Table.swap H t true xx ins) List.length_set
        (fun i full => full.set chain.occupied _ _) fun c hc => .inl hc
      refine ⟨swapped.1, swapped.2 _ ?_⟩
      have same : Layer.pos (H.hash true) t.layer1 (kicked H t true xx ins) =
          Layer.pos (H.hash true) t.layer1 ins := placed true _ inside _ (by rwa [kicked, atPos]) occupied
      rw [Filled, same]
      exact filled
  | false =>
      have swapped := backed.mono (Table.swap H t false xx ins) rfl (fun i full => full) fun c hc => by
        cases Layer.mem_cells_set hc with
        | inl old => exact .inl old
        | inr here =>
            cases Bucket.mem_set here with
            | inl old => exact .inl (Layer.cells_getElem inside (atPos ▸ old))
            | inr new => exact .inr (new ▸ filled)
      refine ⟨swapped.1, swapped.2 _ (backed _ ?_ occupied)⟩
      rw [kicked, atPos]
      exact Layer.cells_getElem inside member

/-- However long the chain is. -/
theorem kickLoop_backed (hw : 0 < w) (ready : t₀.Ready) (placed : t₀.Placed H) (rand : Nat → Nat)
    (times draws : Nat) (chain : Chain H t₀ item flag t ins) (backed : t.Backed H) (filled : t.Filled H ins) :
    (kickLoop H rand times flag t draws ins).table.Backed H := by
  induction times generalizing flag t draws ins with
  | zero => exact backed
  | succ times ih =>
      have moved := chain.swapped hw ready (rand draws)
      obtain ⟨swapped, full⟩ := chain.backed hw ready (chain.placed placed) backed filled (rand draws)
      rw [kickLoop_succ]
      cases tried : Layer.put H (H.hash !flag) (t.side !flag) (kicked H t flag (rand draws) ins) with
      | full => exact ih (draws + 1) (moved.chain (Layer.put_full tried)) swapped full
      | present => exact swapped
      | stored l =>
          have other : (Table.swap H t flag (rand draws) ins).side (!flag) = t.side (!flag) :=
            side_withSide_not _ _ _
          rw [← other] at tried
          exact swapped.put (moved.size.ready ready) moved.occupied (!flag) (fun _ => full) tried

theorem insert_backed (hw : 0 < w) (ready : t.Ready) (placed : t.Placed H) (backed : t.Backed H) (times : Nat)
    (rand : Nat → Nat) (draws : Nat) (hx : H.free item = false) :
    (t.insert H times rand draws item).table.Backed H := by
  unfold insert
  cases first : Layer.put H (H.hash true) t.layer1 item with
  | stored l => exact backed.put ready hx true (by simp) first
  | present => exact backed
  | full =>
      have filled : t.Filled H item := Layer.put_full first
      cases second : Layer.put H (H.hash false) t.layer2 item with
      | stored l => exact backed.put ready hx false (fun _ => filled) second
      | present => exact backed
      | full =>
          have start : Chain H t item true t item :=
            ⟨⟨.refl t, fun _ => .inl, .inr rfl, hx, id, rfl, rfl⟩, filled⟩
          exact kickLoop_backed hw ready placed rand times draws start backed filled

/-- What insertions alone make of an empty table. -/
structure Unrepeated (H : Cells α) (t : Table w α) : Prop where
  placed : t.Placed H
  backed : t.Backed H
  apart : H.Apart (t.stored H)
  counted : t.Counted H

theorem unrepeated_new (law : H.Lawful) (l1 l2 : Nat) : (new H l1 l2 : Table w α).Unrepeated H where
  placed := placed_new law l1 l2
  backed := by
    intro x hx occupied
    rw [Layer.mem_blank hx, law.zero_free] at occupied
    cases occupied
  apart := by
    rw [stored_new law]
    intro a b le
    simp at le
  counted := counted_new law l1 l2

/-- What the insertion of `item` comes to: it is stored already, or it is added and
    at most one item is handed back. -/
structure Unrepeats (H : Cells α) (t : Table w α) (item : α) (r : Outcome w α) : Prop where
  unrepeated : r.table.Unrepeated H
  size : SameSize t r.table
  items : ((∃ c ∈ t.stored H, H.same item c = true) ∧ r.table = t ∧ r.left = none) ∨
    (H.Apart (item ::ₘ t.stored H) ∧ r.table.stored H + ↑r.left.toList = t.stored H + {item})

/-- An item is found if it is stored, and otherwise the table has nothing like it. -/
theorem Unrepeated.insert (u : t.Unrepeated H) (keyed : H.Keyed) (hw : 0 < w) (ready : t.Ready) (times : Nat)
    (rand : Nat → Nat) (draws : Nat) (hx : H.free item = false) :
    Unrepeats H t item (t.insert H times rand draws item) := by
  have settled := insert_settled keyed.toLawful hw ready times rand draws hx
  have backed := insert_backed hw ready u.placed u.backed times rand draws hx
  have fresh : H.Apart (item ::ₘ t.stored H) → Unrepeats H t item (t.insert H times rand draws item) := by
    intro apart
    refine ⟨⟨settled.placed u.placed, backed, ?_, settled.counted apart u.counted⟩, settled.size,
      .inr ⟨apart, settled.stored apart⟩⟩
    apply apart.mono
    rw [← settled.together apart]
    exact Multiset.le_add_left _ _
  have found : ∀ flag, Layer.put H (H.hash flag) (t.side flag) item = .present →
      t.insert H times rand draws item = ⟨t, draws, none⟩ →
      Unrepeats H t item (t.insert H times rand draws item) := by
    intro flag tried same
    obtain ⟨c, hc, like⟩ := Layer.put_present (ready flag) tried
    have stored := (mem_stored t).mpr ⟨(mem_cells_sides t flag).mpr (.inl hc), keyed.same_free _ c hx like⟩
    rw [same]
    exact ⟨u, .refl t, .inl ⟨⟨c, stored, like⟩, rfl, rfl⟩⟩
  -- what both layers do not have is not stored
  have new : ∀ flag, Layer.put H (H.hash flag) (t.side flag) item ≠ .present →
      (∀ c ∈ Layer.cells (t.side !flag), H.free c = false → H.same item c = false) →
      H.Apart (item ::ₘ t.stored H) := by
    intro flag tried other
    refine keyed.apart_cons u.apart fun c hc => ?_
    obtain ⟨hc, occupied⟩ := (mem_stored t).mp hc
    cases (mem_cells_sides t flag).mp hc with
    | inl here => exact (u.placed flag).absent (fun y same => keyed.hash _ y same flag) tried c here occupied
    | inr there => exact other c there occupied
  cases first : Layer.put H (H.hash true) t.layer1 item with
  | present => exact found true first (by simp [Table.insert, first])
  | stored l =>
      refine fresh (new true (by simp [side, first]) fun c hc occupied => ?_)
      by_contra same
      rw [Bool.not_eq_false] at same
      -- otherwise the first bucket of `item` would be full
      have filled := u.backed c hc occupied
      rw [Filled, Layer.pos, ← keyed.hash _ _ same true] at filled
      obtain ⟨b, hb, -⟩ := Layer.put_stored_cases first
      obtain ⟨j, hj, free, -⟩ := Bucket.put_stored hb
      rw [filled _ (List.getElem_mem hj)] at free
      cases free
  | full =>
      by_cases second : Layer.put H (H.hash false) t.layer2 item = .present
      · exact found false second (by simp [Table.insert, first, second])
      · refine fresh (new false second ?_)
        exact (u.placed true).absent (fun y same => keyed.hash _ y same true) (by simp [side, first])

/-- A series of insertions, which may fail. -/
theorem Unrepeated.insertAll (u : t.Unrepeated H) (keyed : H.Keyed) (hw : 0 < w) (ready : t.Ready) (times : Nat)
    (rand : Nat → Nat) (draws : Nat) {xs : List α} (hxs : ∀ x ∈ xs, H.free x = false) :
    (insertAll H times rand xs t draws).table.Unrepeated H ∧ (insertAll H times rand xs t draws).table.Ready := by
  induction xs generalizing t draws with
  | nil => exact ⟨u, ready⟩
  | cons x xs ih =>
      have one := u.insert keyed hw ready times rand draws (hxs x List.mem_cons_self)
      exact ih one.unrepeated (one.size.ready ready) _ fun y hy => hxs y (List.mem_cons_of_mem x hy)

end Table

end TwoLayer
