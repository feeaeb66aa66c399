import CuckooGraph.Table.Bucket

/-! # Layers: rows of buckets addressed by a hash

A layer reduces the hash of an item by the number of its buckets. An occupied
cell is in place when it lies in the bucket its own item names.
-/

namespace TwoLayer

variable {α : Type} {w : Nat}

abbrev Layer (w : Nat) (α : Type) := List (Bucket w α)

namespace Layer

/-- The cells of a layer in the order of a scan. -/
def cells (l : Layer w α) : List α := l.flatMap Bucket.cells

def bucketAt (H : Cells α) (l : Layer w α) (i : Nat) : Bucket w α := l.getD i (Bucket.empty H)

/-- The bucket the item is reduced to. -/
def pos (hash : α → Nat) (l : Layer w α) (x : α) : Nat := hash x % l.length

/-- Put `x` into the bucket that its hash names. -/
def put (H : Cells α) (hash : α → Nat) (l : Layer w α) (x : α) : Put (Layer w α) :=
  ((bucketAt H l (pos hash l x)).put H x).map (l.set (pos hash l x))

/-- Every occupied cell lies in the bucket its hash names. -/
def Placed (H : Cells α) (hash : α → Nat) (l : Layer w α) : Prop :=
  ∀ i, ∀ hi : i < l.length, ∀ x ∈ l[i].cells, H.free x = false → hash x % l.length = i

def blank (H : Cells α) (n : Nat) : Layer w α := List.replicate n (Bucket.empty H)

variable {H : Cells α} {hash : α → Nat}

@[simp] theorem length_blank (n : Nat) : (blank H n : Layer w α).length = n :=
  List.length_replicate

theorem mem_cells {l : Layer w α} {x : α} :
    x ∈ cells l ↔ ∃ i, ∃ hi : i < l.length, x ∈ l[i].cells := by
  simp only [cells, List.mem_flatMap]
  constructor
  · rintro ⟨b, hb, hx⟩
    obtain ⟨i, hi, rfl⟩ := List.mem_iff_getElem.mp hb
    exact ⟨i, hi, hx⟩
  · rintro ⟨i, hi, hx⟩
    exact ⟨l[i], List.getElem_mem hi, hx⟩

theorem cells_sublist {l : Layer w α} {i : Nat} (hi : i < l.length) : l[i].cells.Sublist (cells l) :=
  List.sublist_flatten_of_mem (List.mem_map_of_mem (List.getElem_mem hi))

theorem bucketAt_eq {l : Layer w α} {i : Nat} (hi : i < l.length) : bucketAt H l i = l[i] := by
  simp [bucketAt, List.getD_eq_getElem?_getD, hi]

theorem pos_lt (hash : α → Nat) {l : Layer w α} (hl : 0 < l.length) (x : α) :
    pos hash l x < l.length := Nat.mod_lt _ hl

theorem coe_cells_set (l : Layer w α) {i : Nat} (hi : i < l.length) (b : Bucket w α) :
    (↑(cells (l.set i b)) : Multiset α) + ↑l[i].cells = ↑(cells l) + ↑b.cells := by
  induction l generalizing i with
  | nil => simp at hi
  | cons c cs ih =>
      cases i with
      | zero =>
          simp only [cells, List.set_cons_zero, List.flatMap_cons, List.getElem_cons_zero,
            ← Multiset.coe_add]
          ac_rfl
      | succ i =>
          have hi' : i < cs.length := by simpa using hi
          have tail := ih hi'
          simp only [cells] at tail
          simp only [cells, List.set_cons_succ, List.flatMap_cons, List.getElem_cons_succ,
            ← Multiset.coe_add, add_assoc, tail]

theorem occupied_set {l : Layer w α} {i : Nat} (hi : i < l.length) (b : Bucket w α) :
    H.occupied ↑(cells (l.set i b)) + H.occupied ↑l[i].cells =
      H.occupied ↑(cells l) + H.occupied ↑b.cells := by
  rw [← Cells.occupied_add, ← Cells.occupied_add, coe_cells_set l hi b]

theorem mem_cells_set {l : Layer w α} {i : Nat} {b : Bucket w α} {c : α}
    (h : c ∈ cells (l.set i b)) : c ∈ cells l ∨ c ∈ b.cells := by
  simp only [cells, List.mem_flatMap] at h ⊢
  obtain ⟨b', hb', hc⟩ := h
  rcases List.mem_or_eq_of_mem_set hb' with hb' | rfl
  · exact .inl ⟨b', hb', hc⟩
  · exact .inr hc

theorem cells_getElem {l : Layer w α} {i : Nat} (hi : i < l.length) {c : α}
    (h : c ∈ l[i].cells) : c ∈ cells l := mem_cells.mpr ⟨i, hi, h⟩

theorem mem_blank {n : Nat} {c : α} (h : c ∈ cells (blank H n : Layer w α)) : c = H.zero := by
  simp only [cells, blank, List.mem_flatMap] at h
  obtain ⟨b, hb, hc⟩ := h
  rw [List.eq_of_mem_replicate hb] at hc
  exact List.eq_of_mem_replicate hc

theorem occupied_blank (law : H.Lawful) (n : Nat) :
    H.occupied ↑(cells (blank H n : Layer w α)) = 0 := by
  refine Multiset.filter_eq_nil.mpr fun x hx => ?_
  rw [mem_blank hx, law.zero_free]
  simp

theorem placed_blank (law : H.Lawful) (n : Nat) : Placed H hash (blank H n : Layer w α) := by
  intro i hi x hx occupied
  rw [mem_blank (cells_getElem hi hx), law.zero_free] at occupied
  cases occupied

/-- Changing one bucket keeps a layer in place if the new bucket is. -/
theorem Placed.set {l : Layer w α} (h : Placed H hash l) {i : Nat} {b : Bucket w α}
    (hb : ∀ x ∈ b.cells, H.free x = false → hash x % l.length = i) : Placed H hash (l.set i b) := by
  intro j hj x hx occupied
  simp only [List.length_set] at hj ⊢
  rw [List.getElem_set] at hx
  split at hx
  · rename_i same
    exact same ▸ hb x hx occupied
  · exact h j hj x hx occupied

section Put

variable {l l' : Layer w α} {x : α}

/-- What a layer does with an item is what the bucket of its hash does. -/
theorem put_stored_cases (h : put H hash l x = .stored l') :
    ∃ b', (bucketAt H l (pos hash l x)).put H x = .stored b' ∧ l' = l.set (pos hash l x) b' := by
  rw [put] at h
  cases hb : (bucketAt H l (pos hash l x)).put H x with
  | full => rw [hb] at h; cases h
  | present => rw [hb] at h; cases h
  | stored b' =>
      rw [hb] at h
      cases h
      exact ⟨b', rfl, rfl⟩

theorem put_full (h : put H hash l x = .full) :
    ∀ c ∈ (bucketAt H l (pos hash l x)).cells, H.free c = false := by
  cases hb : (bucketAt H l (pos hash l x)).put H x with
  | full => exact Bucket.put_full hb
  | present => rw [put, hb] at h; cases h
  | stored b' => rw [put, hb] at h; cases h

theorem put_present (hl : 0 < l.length) (h : put H hash l x = .present) :
    ∃ c ∈ cells l, H.same x c = true := by
  cases hb : (bucketAt H l (pos hash l x)).put H x with
  | full => rw [put, hb] at h; cases h
  | stored b' => rw [put, hb] at h; cases h
  | present =>
      obtain ⟨c, hc, same⟩ := Bucket.put_present hb
      rw [bucketAt_eq (pos_lt hash hl x)] at hc
      exact ⟨c, cells_getElem _ hc, same⟩

theorem length_put (h : put H hash l x = .stored l') : l'.length = l.length := by
  rw [put] at h
  cases hb : (bucketAt H l (pos hash l x)).put H x with
  | full => rw [hb] at h; cases h
  | present => rw [hb] at h; cases h
  | stored b' => rw [hb] at h; cases h; exact List.length_set

theorem occupied_put (hl : 0 < l.length) (hx : H.free x = false)
    (h : put H hash l x = .stored l') :
    H.occupied ↑(cells l') = H.occupied ↑(cells l) + {x} := by
  obtain ⟨b', hb, rfl⟩ := put_stored_cases h
  have inside := pos_lt hash hl x
  rw [bucketAt_eq inside] at hb
  have exchange := occupied_set (H := H) inside b'
  rw [Bucket.occupied_put hx hb, add_comm (H.occupied _) {x}, ← add_assoc] at exchange
  exact add_right_cancel exchange

theorem mem_put (hl : 0 < l.length) (h : put H hash l x = .stored l') {c : α}
    (hc : c ∈ cells l') : c ∈ cells l ∨ c = x := by
  obtain ⟨b', hb, rfl⟩ := put_stored_cases h
  rw [bucketAt_eq (pos_lt hash hl x)] at hb
  obtain ⟨j, -, -, rfl⟩ := Bucket.put_stored hb
  rcases mem_cells_set hc with hc | hc
  · exact .inl hc
  · rcases Bucket.mem_set hc with hc | rfl
    · exact .inl (cells_getElem _ hc)
    · exact .inr rfl

theorem placed_put (hl : 0 < l.length) (h : put H hash l x = .stored l')
    (hp : Placed H hash l) : Placed H hash l' := by
  obtain ⟨b', hb, rfl⟩ := put_stored_cases h
  rw [bucketAt_eq (pos_lt hash hl x)] at hb
  obtain ⟨j, -, -, rfl⟩ := Bucket.put_stored hb
  refine hp.set fun c hc occupied => ?_
  rcases Bucket.mem_set hc with hc | rfl
  · exact hp _ (pos_lt hash hl x) c hc occupied
  · rfl

end Put

end Layer

end TwoLayer
