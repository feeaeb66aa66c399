import CuckooGraph.Table.Bulk

/-! # Merging three tables

The first table is copied into both halves of a new one of twice its size and
each copy is erased where the hash does not name it. The items of the other two
are rehashed without kicks; those which find their bucket full wait in a queue
and are inserted with kicks at the end.
-/

namespace TwoLayer

variable {α : Type} {w : Nat}

/-- A layer with items put into it, how many did not find their bucket full,
    and the queue of those which did. -/
structure Rehashed (w : Nat) (α : Type) where
  layer : Layer w α
  added : Int
  queue : List α

/-- What the lower copy of a cell of bucket `i` is after the hash test. -/
def keepLow (H : Cells α) (hash : α → Nat) (n i : Nat) (x : α) : α :=
  if H.skip x then x else if i ≠ hash x % n then H.zero else x

def keepHigh (H : Cells α) (hash : α → Nat) (n i : Nat) (x : α) : α :=
  if H.skip x then x else if i ≠ hash x % n then x else H.zero

namespace Layer

/-- The copy of `l` into both halves of a layer of twice the length, each item
    erased from the half which its hash does not name. -/
def double (H : Cells α) (hash : α → Nat) (l : Layer w α) : Layer w α :=
  (l.zipIdx.map fun (b, i) => b.map (keepLow H hash (l.length * 2) i)) ++
    (l.zipIdx.map fun (b, i) => b.map (keepHigh H hash (l.length * 2) i))

/-- The items of the first `k` buckets of two layers, bucket by bucket. -/
def zipItems (H : Cells α) (k : Nat) (a b : Layer w α) : List α :=
  (List.range k).flatMap fun i =>
    ((bucketAt H a i).cells ++ (bucketAt H b i).cells).filter fun x => !H.skip x

/-- Put items where their hashes name, without kicks. -/
def rehash (H : Cells α) (hash : α → Nat) : List α → Layer w α → Rehashed w α
  | [], l => ⟨l, 0, []⟩
  | x :: xs, l =>
      match put H hash l x with
      | .full =>
          let rest := rehash H hash xs l
          { rest with queue := x :: rest.queue }
      | .present =>
          let rest := rehash H hash xs l
          { rest with added := rest.added + 1 }
      | .stored l =>
          let rest := rehash H hash xs l
          { rest with added := rest.added + 1 }

end Layer

/-- Merge three tables into a new one of twice the size of the first. -/
def Table.merge (H : Cells α) (times : Nat) (rand : Nat → Nat) (c0 c1 c2 : Table w α)
    (draws : Nat) : Bulk w α :=
  let r1 := Layer.rehash H (H.hash true) (Layer.zipItems H (c0.len1 / 2) c1.layer1 c2.layer1)
    (Layer.double H (H.hash true) c0.layer1)
  let r2 := Layer.rehash H (H.hash false) (Layer.zipItems H (c0.len2 / 2) c1.layer2 c2.layer2)
    (Layer.double H (H.hash false) c0.layer2)
  Table.insertAll H times rand (r1.queue ++ r2.queue)
    ⟨r1.layer, r2.layer, c0.num + r1.added + r2.added⟩ draws

/-- The two tests for a free cell agree. -/
def Cells.Agree (H : Cells α) (cells : List α) : Prop := ∀ c ∈ cells, H.skip c = H.free c

section Double

variable {H : Cells α} (law : H.Lawful) (hash : α → Nat)

include law

/-- Each item survives in exactly one of the two copies. -/
theorem occupied_keep (n i : Nat) {cells : List α} (agree : H.Agree cells) :
    H.occupied ↑(cells.map (keepLow H hash n i)) + H.occupied ↑(cells.map (keepHigh H hash n i)) =
      H.occupied ↑cells := by
  induction cells with
  | nil => rfl
  | cons x xs ih =>
      have tail := ih fun c hc => agree c (List.mem_cons_of_mem x hc)
      have same := agree x List.mem_cons_self
      have cons : ∀ (y : α) (ys : List α), H.occupied ↑(y :: ys) = H.occupied {y} + H.occupied ↑ys := by
        intro y ys
        rw [← Cells.occupied_add, Multiset.singleton_add, Multiset.cons_coe]
      have head : H.occupied {keepLow H hash n i x} + H.occupied {keepHigh H hash n i x} =
          H.occupied {x} := by
        cases free : H.free x with
        | true =>
            simp [keepLow, keepHigh, same, free, Cells.occupied_singleton_free free]
        | false =>
            have erased := Cells.occupied_singleton_free law.zero_free
            by_cases named : i = hash x % n
            · simp [keepLow, keepHigh, same, free, ← named, erased]
            · simp [keepLow, keepHigh, same, free, named, erased]
      rw [List.map_cons, List.map_cons, cons, cons, cons x xs, ← tail, ← head]
      ac_rfl

theorem Layer.occupied_double {l : Layer w α} (agree : H.Agree l.cells) :
    H.occupied ↑(cells (double H hash l)) = H.occupied ↑(cells l) := by
  have halves : ∀ (n k : Nat) (l : Layer w α), H.Agree l.cells →
      H.occupied ↑(cells ((l.zipIdx k).map fun (b, i) => b.map (keepLow H hash n i))) +
        H.occupied ↑(cells ((l.zipIdx k).map fun (b, i) => b.map (keepHigh H hash n i))) =
      H.occupied ↑(cells l) := by
    intro n k l agree
    induction l generalizing k with
    | nil => rfl
    | cons b bs ih =>
        have tail := ih (k + 1) fun c hc => agree c (by
          simp only [cells, List.flatMap_cons, List.mem_append] at hc ⊢
          exact .inr hc)
        have here : H.Agree b.cells := fun c hc => agree c (by
          simp only [cells, List.flatMap_cons, List.mem_append]
          exact .inl hc)
        have head := occupied_keep law hash n k here
        simp only [cells] at tail
        simp only [cells, List.zipIdx_cons, List.map_cons, List.flatMap_cons, ← Multiset.coe_add,
          Cells.occupied_add, ← tail, ← head, Bucket.map]
        ac_rfl
  rw [← halves (l.length * 2) 0 l agree, ← Cells.occupied_add, Multiset.coe_add]
  simp only [double, cells, List.flatMap_append]

omit law in
@[simp] theorem Layer.length_double (l : Layer w α) : (double H hash l).length = l.length * 2 := by
  simp [double]
  omega

omit law in
theorem Layer.mem_double {l : Layer w α} {c : α} (h : c ∈ cells (double H hash l)) :
    c ∈ cells l ∨ c = H.zero := by
  have back : ∀ (f : Nat → α → α), (∀ i x, f i x = x ∨ f i x = H.zero) →
      c ∈ cells (l.zipIdx.map fun (b, i) => b.map (f i)) → c ∈ cells l ∨ c = H.zero := by
    intro f keeps h
    simp only [cells, List.mem_flatMap, List.mem_map] at h
    obtain ⟨b', ⟨⟨b, i⟩, hb, rfl⟩, hc⟩ := h
    obtain ⟨x, hx, rfl⟩ := List.mem_map.mp hc
    rcases keeps i x with same | same
    · rw [same]
      exact .inl (List.mem_flatMap.mpr ⟨b, (List.mem_zipIdx' hb).2 ▸ List.getElem_mem _, hx⟩)
    · exact .inr same
  simp only [double, cells, List.flatMap_append, List.mem_append] at h
  rcases h with h | h
  · refine back _ (fun i x => ?_) h
    unfold keepLow
    split
    · exact .inl rfl
    · split <;> simp
  · refine back _ (fun i x => ?_) h
    unfold keepHigh
    split
    · exact .inl rfl
    · split <;> simp

theorem keepLow_occupied {n i : Nat} {x : α} (same : H.skip x = H.free x)
    (h : H.free (keepLow H hash n i x) = false) :
    keepLow H hash n i x = x ∧ H.free x = false ∧ i = hash x % n := by
  unfold keepLow at h ⊢
  split at h
  · rename_i skipped
    rw [← same, skipped] at h
    cases h
  · rename_i kept
    split at h
    · rw [law.zero_free] at h
      cases h
    · rename_i named
      have named := not_not.mp named
      exact ⟨by simp [← named], h, named⟩

theorem keepHigh_occupied {n i : Nat} {x : α} (same : H.skip x = H.free x)
    (h : H.free (keepHigh H hash n i x) = false) :
    keepHigh H hash n i x = x ∧ H.free x = false ∧ i ≠ hash x % n := by
  unfold keepHigh at h ⊢
  split at h
  · rename_i skipped
    rw [← same, skipped] at h
    cases h
  · rename_i kept
    split at h
    · rename_i named
      exact ⟨by simp [named], h, named⟩
    · rw [law.zero_free] at h
      cases h

theorem Layer.placed_double {l : Layer w α} (agree : H.Agree l.cells) (placed : Placed H hash l) :
    Placed H hash (double H hash l) := by
  intro j hj c hc occupied
  have inside : j < l.length * 2 := by rwa [length_double] at hj
  rw [length_double]
  by_cases low : j < l.length
  · have atLow : (double H hash l)[j] = l[j].map (keepLow H hash (l.length * 2) j) := by
      simp [double, low]
    rw [atLow] at hc
    obtain ⟨x, hx, rfl⟩ := List.mem_map.mp hc
    obtain ⟨kept, -, named⟩ := keepLow_occupied law hash (agree x (cells_getElem low hx)) occupied
    rw [kept, ← named]
  · have high : j - l.length < l.length := by omega
    have atHigh : (double H hash l)[j] =
        l[j - l.length].map (keepHigh H hash (l.length * 2) (j - l.length)) := by
      simp [double, List.getElem_append, low]
    rw [atHigh] at hc
    obtain ⟨x, hx, rfl⟩ := List.mem_map.mp hc
    obtain ⟨kept, free, named⟩ := keepHigh_occupied law hash (agree x (cells_getElem high hx)) occupied
    have home := placed _ high x hx free
    have two : hash x % (l.length * 2) = hash x % l.length + l.length * (hash x / l.length % 2) :=
      Nat.mod_mul
    rw [kept]
    rcases Nat.mod_two_eq_zero_or_one (hash x / l.length) with even | odd
    · rw [even, home] at two
      exact absurd two.symm named
    · rw [odd, home] at two
      omega

end Double

section Rehash

variable {H : Cells α} {hash : α → Nat}

/-- The spec of putting items where their hashes name. -/
structure RehashSettled (H : Cells α) (hash : α → Nat) (xs : List α) (l : Layer w α)
    (r : Rehashed w α) : Prop where
  size : r.layer.length = l.length
  cells : ∀ c ∈ Layer.cells r.layer, c ∈ Layer.cells l ∨ c ∈ xs
  queue : r.queue ⊆ xs
  placed : Layer.Placed H hash l → Layer.Placed H hash r.layer
  stored : H.Apart (H.occupied ↑(Layer.cells l) + ↑xs) →
    H.occupied ↑(Layer.cells r.layer) + ↑r.queue = H.occupied ↑(Layer.cells l) + ↑xs
  added : r.added + r.queue.length = xs.length

theorem Layer.rehash_settled (law : H.Lawful) (hash : α → Nat) {xs : List α} (hxs : ∀ x ∈ xs, H.free x = false)
    {l : Layer w α} (room : 0 < l.length) : RehashSettled H hash xs l (rehash H hash xs l) := by
  induction xs generalizing l with
  | nil => exact ⟨rfl, fun _ => .inl, by simp [rehash], id, fun _ => rfl, by simp [rehash]⟩
  | cons x xs ih =>
      have hx := hxs x List.mem_cons_self
      have later := fun y hy => hxs y (List.mem_cons_of_mem x hy)
      have regroup : H.occupied ↑(cells l) + ↑(x :: xs) = x ::ₘ (H.occupied ↑(cells l) + ↑xs) := by
        rw [← Multiset.cons_coe, Multiset.add_cons]
      unfold rehash
      cases tried : put H hash l x with
      | full =>
          have rest := ih later room
          refine ⟨rest.size, fun c hc => (rest.cells c hc).imp_right (List.mem_cons_of_mem x),
            List.cons_subset_cons x rest.queue, rest.placed, fun apart => ?_, ?_⟩
          · rw [regroup] at apart ⊢
            simp only [← Multiset.cons_coe, Multiset.add_cons,
              rest.stored (apart.mono (Multiset.le_cons_self _ _))]
          · simpa [← add_assoc] using rest.added
      | present =>
          have rest := ih later room
          refine ⟨rest.size, fun c hc => (rest.cells c hc).imp_right (List.mem_cons_of_mem x),
            fun c hc => List.mem_cons_of_mem x (rest.queue hc), rest.placed, fun apart => ?_, ?_⟩
          · obtain ⟨c, hc, same⟩ := put_present room tried
            have member : c ∈ H.occupied ↑(cells l) + ↑xs :=
              Multiset.mem_add.mpr (.inl (Cells.mem_occupied.mpr ⟨hc, law.same_free x c hx same⟩))
            rw [regroup] at apart
            rw [apart.of_mem member] at same
            cases same
          · have added := rest.added
            simp only [List.length_cons]
            omega
      | stored l' =>
          have rest := ih later (l := l') (by rwa [length_put tried])
          have took := occupied_put room hx tried
          refine ⟨rest.size.trans (length_put tried), fun c hc => ?_,
            fun c hc => List.mem_cons_of_mem x (rest.queue hc),
            fun placed => rest.placed (placed_put room tried placed), fun apart => ?_, ?_⟩
          · rcases rest.cells c hc with hc | hc
            · rcases mem_put room tried hc with hc | rfl
              · exact .inl hc
              · exact .inr List.mem_cons_self
            · exact .inr (List.mem_cons_of_mem x hc)
          · rw [regroup] at apart ⊢
            have moved : H.occupied ↑(cells l') + ↑xs = x ::ₘ (H.occupied ↑(cells l) + ↑xs) := by
              rw [took, add_right_comm, add_comm, Multiset.singleton_add]
            rw [← moved] at apart ⊢
            exact rest.stored apart
          · have added := rest.added
            simp only [List.length_cons]
            omega

/-- The spec of doubling a layer and putting items into the double. -/
structure RefillSettled (H : Cells α) (hash : α → Nat) (xs : List α) (l : Layer w α)
    (r : Rehashed w α) : Prop where
  size : r.layer.length = l.length * 2
  cells : ∀ c ∈ Layer.cells r.layer, c ∈ Layer.cells l ∨ c ∈ xs ∨ c = H.zero
  queue : r.queue ⊆ xs
  placed : Layer.Placed H hash l → Layer.Placed H hash r.layer
  stored : H.Apart (H.occupied ↑(Layer.cells l) + ↑xs) →
    H.occupied ↑(Layer.cells r.layer) + ↑r.queue = H.occupied ↑(Layer.cells l) + ↑xs
  added : r.added + r.queue.length = xs.length

theorem Layer.refill_settled (law : H.Lawful) (hash : α → Nat) {xs : List α} (hxs : ∀ x ∈ xs, H.free x = false)
    {l : Layer w α} (room : 0 < l.length) (agree : H.Agree l.cells) :
    RefillSettled H hash xs l (rehash H hash xs (double H hash l)) := by
  have doubled := length_double hash (H := H) l
  have settled := rehash_settled law hash hxs (l := double H hash l)
    (by rw [doubled]; exact Nat.mul_pos room Nat.two_pos)
  have stored := settled.stored
  rw [occupied_double law hash agree] at stored
  refine ⟨settled.size.trans doubled, fun c hc => ?_, settled.queue,
    fun placed => settled.placed (placed_double law hash agree placed), stored, settled.added⟩
  rcases settled.cells c hc with hc | hc
  · exact (mem_double hash hc).imp_right .inr
  · exact .inr (.inl hc)

/-- Scanning two layers bucket by bucket meets every item of both. -/
theorem Layer.coe_zipItems {a b : Layer w α} {k : Nat} (ha : a.length = k)
    (hb : b.length = k) (agree : H.Agree a.cells) (agree' : H.Agree b.cells) :
    (↑(zipItems H k a b) : Multiset α) = H.occupied ↑(cells a) + H.occupied ↑(cells b) := by
  induction k generalizing a b with
  | zero =>
      rw [List.length_eq_zero_iff.mp ha, List.length_eq_zero_iff.mp hb]
      rfl
  | succ k ih =>
      obtain ⟨c, as, rfl⟩ := List.exists_cons_of_length_eq_add_one ha
      obtain ⟨d, bs, rfl⟩ := List.exists_cons_of_length_eq_add_one hb
      have scanned : ∀ (xs : List α), H.Agree xs →
          (↑(xs.filter fun x => !H.skip x) : Multiset α) = H.occupied ↑xs := by
        intro xs agree
        rw [Cells.occupied, Multiset.filter_coe]
        refine congrArg _ (List.filter_congr fun x hx => ?_)
        rw [agree x hx]
        cases H.free x <;> rfl
      have inHead : ∀ {e : Bucket w α} {es : Layer w α} {x}, x ∈ e.cells → x ∈ cells (e :: es) :=
        fun hx => List.mem_flatMap.mpr ⟨_, List.mem_cons_self, hx⟩
      have inTail : ∀ {e : Bucket w α} {es : Layer w α} {x}, x ∈ cells es → x ∈ cells (e :: es) := by
        intro e es x hx
        simp only [cells, List.flatMap_cons, List.mem_append]
        exact .inr hx
      have tail := ih (a := as) (b := bs) (by simpa using ha) (by simpa using hb)
        (fun x hx => agree x (inTail hx)) (fun x hx => agree' x (inTail hx))
      have head := scanned (c.cells ++ d.cells) fun x hx =>
        (List.mem_append.mp hx).elim (fun hx => agree x (inHead hx)) (fun hx => agree' x (inHead hx))
      have shift : zipItems H (k + 1) (c :: as) (d :: bs) =
          ((c.cells ++ d.cells).filter fun x => !H.skip x) ++ zipItems H k as bs := by
        simp only [zipItems, List.range_succ_eq_map, List.flatMap_cons, List.flatMap_map]
        rfl
      rw [shift, ← Multiset.coe_add, head, tail, ← Multiset.coe_add, Cells.occupied_add]
      simp only [cells, List.flatMap_cons, ← Multiset.coe_add, Cells.occupied_add]
      ac_rfl

end Rehash

namespace Table

variable {H : Cells α}

/-- The spec of a merge. The sizes are those which the scan of the two smaller
    tables relies on. -/
structure MergeSettled (H : Cells α) (c0 c1 c2 : Table w α) (r : Bulk w α) : Prop where
  size : ∀ flag, (r.table.side flag).length = (c0.side flag).length * 2
  cells : ∀ c ∈ r.table.cells, c ∈ c0.cells ∨ c ∈ c1.cells ∨ c ∈ c2.cells ∨ c = H.zero
  left : ∀ c ∈ r.left, (c ∈ c0.cells ∨ c ∈ c1.cells ∨ c ∈ c2.cells ∨ c = H.zero) ∧ H.free c = false
  placed : c0.Placed H → r.table.Placed H
  stored : H.Apart (c0.stored H + (c1.stored H + c2.stored H)) →
    r.table.stored H + ↑r.left = c0.stored H + (c1.stored H + c2.stored H)
  counted : H.Apart (c0.stored H + (c1.stored H + c2.stored H)) →
    c0.Counted H → r.table.Counted H

theorem agree_side {t : Table w α} (agree : H.Agree t.cells) (flag : Bool) :
    H.Agree (Layer.cells (t.side flag)) :=
  fun c hc => agree c ((mem_cells_sides t flag).mpr (.inl hc))

theorem side_le (t : Table w α) (flag : Bool) :
    H.occupied ↑(Layer.cells (t.side flag)) ≤ t.stored H := by
  rw [stored_sides t flag]
  exact Multiset.le_add_right _ _

/-- A table of twice the size of `c0`, into which the items of each layer are rehashed. -/
def grown (H : Cells α) (times : Nat) (rand : Nat → Nat) (c0 : Table w α) (items : Bool → List α)
    (draws : Nat) : Bulk w α :=
  let r := fun flag => Layer.rehash H (H.hash flag) (items flag) (Layer.double H (H.hash flag) (c0.side flag))
  insertAll H times rand ((r true).queue ++ (r false).queue)
    ⟨(r true).layer, (r false).layer, c0.num + (r true).added + (r false).added⟩ draws

/-- The spec of `grown`; compare `MergeSettled`. -/
structure GrownSettled (H : Cells α) (c0 : Table w α) (items : Bool → List α) (r : Bulk w α) : Prop where
  size : ∀ flag, (r.table.side flag).length = (c0.side flag).length * 2
  cells : ∀ c ∈ r.table.cells, c ∈ c0.cells ∨ (∃ flag, c ∈ items flag) ∨ c = H.zero
  left : ∀ c ∈ r.left, (c ∈ c0.cells ∨ (∃ flag, c ∈ items flag) ∨ c = H.zero) ∧ H.free c = false
  placed : c0.Placed H → r.table.Placed H
  stored : H.Apart (c0.stored H + (↑(items true) + ↑(items false))) →
    r.table.stored H + ↑r.left = c0.stored H + (↑(items true) + ↑(items false))
  counted : H.Apart (c0.stored H + (↑(items true) + ↑(items false))) → c0.Counted H → r.table.Counted H

theorem grown_settled (law : H.Lawful) (hw : 0 < w) (times : Nat) (rand : Nat → Nat) {c0 : Table w α}
    (ready : c0.Ready) (agree : H.Agree c0.cells) {items : Bool → List α}
    (occupied : ∀ flag, ∀ x ∈ items flag, H.free x = false) (draws : Nat) :
    GrownSettled H c0 items (grown H times rand c0 items draws) := by
  let side := fun flag => Layer.rehash H (H.hash flag) (items flag) (Layer.double H (H.hash flag) (c0.side flag))
  have sides : ∀ flag, RefillSettled H (H.hash flag) (items flag) (c0.side flag) (side flag) := fun flag =>
    Layer.refill_settled law (H.hash flag) (occupied flag) (ready flag) (agree_side agree flag)
  -- the table into which the queue is drained
  let t : Table w α := ⟨(side true).layer, (side false).layer, c0.num + (side true).added + (side false).added⟩
  have sideOf : ∀ flag, t.side flag = (side flag).layer := by
    intro flag
    cases flag <;> rfl
  let queue := (side true).queue ++ (side false).queue
  have queued : ∀ x ∈ queue, (∃ flag, x ∈ items flag) ∧ H.free x = false := fun x hx =>
    (List.mem_append.mp hx).elim
      (fun hx => ⟨⟨true, (sides true).queue hx⟩, occupied true x ((sides true).queue hx)⟩)
      (fun hx => ⟨⟨false, (sides false).queue hx⟩, occupied false x ((sides false).queue hx)⟩)
  have size : ∀ flag, (t.side flag).length = (c0.side flag).length * 2 := fun flag => by
    rw [sideOf flag, (sides flag).size]
  have drained := insertAll_settled law hw times rand (fun x hx => (queued x hx).2)
    (t := t) (fun flag => by rw [size flag]; exact Nat.mul_pos (ready flag) Nat.two_pos) draws
  have origin : ∀ c, c ∈ t.cells ∨ c ∈ queue → c ∈ c0.cells ∨ (∃ flag, c ∈ items flag) ∨ c = H.zero := by
    rintro c (hc | hc)
    · have inSide : ∀ flag, c ∈ Layer.cells (t.side flag) →
          c ∈ c0.cells ∨ (∃ flag, c ∈ items flag) ∨ c = H.zero := by
        intro flag hc
        rw [sideOf flag] at hc
        rcases (sides flag).cells c hc with hc | hc | zero
        · exact .inl ((mem_cells_sides c0 flag).mpr (.inl hc))
        · exact .inr (.inl ⟨flag, hc⟩)
        · exact .inr (.inr zero)
      exact ((mem_cells_sides t true).mp hc).elim (inSide true) (inSide false)
    · exact .inr (.inl (queued c hc).1)
  -- what one layer of the new table and its queue hold
  have onSide : H.Apart (c0.stored H + (↑(items true) + ↑(items false))) → ∀ flag,
      H.occupied ↑(Layer.cells (t.side flag)) + ↑(side flag).queue =
        H.occupied ↑(Layer.cells (c0.side flag)) + ↑(items flag) := by
    intro apart flag
    rw [sideOf flag]
    refine (sides flag).stored (apart.mono (add_le_add (side_le c0 flag) ?_))
    cases flag
    · exact Multiset.le_add_left _ _
    · exact Multiset.le_add_right _ _
  have together : H.Apart (c0.stored H + (↑(items true) + ↑(items false))) →
      t.stored H + ↑queue = c0.stored H + (↑(items true) + ↑(items false)) := by
    intro apart
    have both := congrArg₂ (· + ·) (onSide apart true) (onSide apart false)
    rw [stored_sides t true, stored_sides c0 true, ← Multiset.coe_add]
    calc _ = (H.occupied ↑(Layer.cells (t.side true)) + ↑(side true).queue) +
          (H.occupied ↑(Layer.cells (t.side false)) + ↑(side false).queue) := by
            simp only [Bool.not_true]
            ac_rfl
      _ = _ := both
      _ = _ := by
            simp only [Bool.not_true]
            ac_rfl
  refine ⟨fun flag => (drained.size flag).trans (size flag), fun c hc => origin c (drained.cells c hc),
    fun c hc => ⟨origin c (drained.left c hc).1, (drained.left c hc).2⟩, fun placed => ?_,
    fun apart => ?_, fun apart counted => ?_⟩
  · refine drained.placed fun flag => ?_
    rw [sideOf flag]
    exact (sides flag).placed (placed flag)
  · have whole := together apart
    rw [← whole]
    exact drained.stored (whole.symm ▸ apart)
  · have whole := together apart
    refine drained.counted (whole.symm ▸ apart) ?_
    have card := congrArg Multiset.card whole
    have added1 := (sides true).added
    have added2 := (sides false).added
    have waiting : queue.length = (side true).queue.length + (side false).queue.length := List.length_append
    have num : t.num = c0.num + (side true).added + (side false).added := rfl
    simp only [Multiset.card_add, Multiset.coe_card] at card
    simp only [Counted] at counted ⊢
    omega

theorem merge_settled (law : H.Lawful) (hw : 0 < w) (times : Nat) (rand : Nat → Nat)
    {c0 c1 c2 : Table w α} (ready : c0.Ready)
    (agree0 : H.Agree c0.cells) (agree1 : H.Agree c1.cells) (agree2 : H.Agree c2.cells)
    (half1 : ∀ flag, (c1.side flag).length = (c0.side flag).length / 2)
    (half2 : ∀ flag, (c2.side flag).length = (c0.side flag).length / 2) (draws : Nat) :
    MergeSettled H c0 c1 c2 (merge H times rand c0 c1 c2 draws) := by
  let items := fun flag => Layer.zipItems H ((c0.side flag).length / 2) (c1.side flag) (c2.side flag)
  have scanned : ∀ flag, (↑(items flag) : Multiset α) =
      H.occupied ↑(Layer.cells (c1.side flag)) + H.occupied ↑(Layer.cells (c2.side flag)) := fun flag =>
    Layer.coe_zipItems (half1 flag) (half2 flag) (agree_side agree1 flag) (agree_side agree2 flag)
  have origin : ∀ flag, ∀ x ∈ items flag, (x ∈ c1.cells ∨ x ∈ c2.cells) ∧ H.free x = false := by
    intro flag x hx
    have member : x ∈ (↑(items flag) : Multiset α) := hx
    rw [scanned flag] at member
    rcases Multiset.mem_add.mp member with member | member
    · obtain ⟨member, free⟩ := Cells.mem_occupied.mp member
      exact ⟨.inl ((mem_cells_sides c1 flag).mpr (.inl member)), free⟩
    · obtain ⟨member, free⟩ := Cells.mem_occupied.mp member
      exact ⟨.inr ((mem_cells_sides c2 flag).mpr (.inl member)), free⟩
  have all : (↑(items true) : Multiset α) + ↑(items false) = c1.stored H + c2.stored H := by
    rw [scanned true, scanned false, stored_sides c1 true, stored_sides c2 true]
    simp only [Bool.not_true]
    ac_rfl
  have settled : GrownSettled H c0 items (merge H times rand c0 c1 c2 draws) :=
    grown_settled law hw times rand ready agree0 (fun flag x hx => (origin flag x hx).2) draws
  have among : ∀ c, (∃ flag, c ∈ items flag) ∨ c = H.zero → c ∈ c1.cells ∨ c ∈ c2.cells ∨ c = H.zero := by
    rintro c (⟨flag, hc⟩ | zero)
    · exact (origin flag c hc).1.imp_right .inl
    · exact .inr (.inr zero)
  refine ⟨settled.size, fun c hc => (settled.cells c hc).imp_right (among c),
    fun c hc => ⟨(settled.left c hc).1.imp_right (among c), (settled.left c hc).2⟩, settled.placed, ?_, ?_⟩
  · rw [← all]
    exact settled.stored
  · rw [← all]
    exact settled.counted

end Table

end TwoLayer
