import Mathlib.Data.Multiset.Bind
import Mathlib.Data.Multiset.Filter
import Mathlib.Data.Multiset.UnionInter
import Mathlib.Tactic

/-! # Buckets of fixed width

A bucket is a row of `w` cells. Nothing is known of a cell but what `Cells`
says of it: which cell counts as free, which cells hold the same item, and the
two hash values of its item. What a bucket stores is the multiset of its cells
which are not free, so that every operation below is a statement about adding
to, or exchanging within, that multiset.
-/

namespace TwoLayer

variable {α β : Type} {w : Nat}

/-- How a table reads its cells. `free` is the test by which a bucket finds
    room; `skip` is the test by which a scan passes over a cell. The two agree
    on the cells of a well-formed table, but a program may use one here and
    the other there. -/
structure Cells (α : Type) where
  zero : α
  free : α → Bool
  skip : α → Bool
  same : α → α → Bool
  hash : Bool → α → Nat

/-- A cleared cell is free, and only occupied cells hold the same item. -/
structure Cells.Lawful (H : Cells α) : Prop where
  zero_free : H.free H.zero = true
  same_free : ∀ x y, H.free x = false → H.same x y = true → H.free y = false

/-- The multiset of the occupied cells among `s`. -/
def Cells.occupied (H : Cells α) (s : Multiset α) : Multiset α :=
  s.filter fun x => H.free x = false

/-- No two items of `s` are the same for the table. -/
def Cells.Apart (H : Cells α) (s : Multiset α) : Prop :=
  ∀ a b, a ::ₘ b ::ₘ 0 ≤ s → H.same a b = false

namespace Cells

variable {H : Cells α}

@[simp] theorem occupied_add (s t : Multiset α) :
    H.occupied (s + t) = H.occupied s + H.occupied t := Multiset.filter_add _ _ _

@[simp] theorem mem_occupied {s : Multiset α} {x : α} :
    x ∈ H.occupied s ↔ x ∈ s ∧ H.free x = false := Multiset.mem_filter

theorem occupied_singleton {x : α} (hx : H.free x = false) : H.occupied {x} = {x} := by
  simp [occupied, Multiset.filter_singleton, hx]

theorem occupied_singleton_free {x : α} (hx : H.free x = true) : H.occupied {x} = 0 := by
  simp [occupied, Multiset.filter_singleton, hx]

theorem Apart.mono {s t : Multiset α} (h : H.Apart t) (le : s ≤ t) : H.Apart s :=
  fun a b hab => h a b (le_trans hab le)

theorem Apart.of_mem {s : Multiset α} {x y : α} (h : H.Apart (x ::ₘ s)) (hy : y ∈ s) :
    H.same x y = false := by
  apply h x y
  exact Multiset.cons_le_cons x (Multiset.singleton_le.mpr hy)

/-- A table which never asks whether an item is there keeps any items apart. -/
theorem apart_of_never (h : ∀ x y, H.same x y = false) (s : Multiset α) : H.Apart s :=
  fun a b _ => h a b

end Cells

/-- A row of `w` cells. -/
structure Bucket (w : Nat) (α : Type) where
  cells : List α
  size : cells.length = w
  deriving DecidableEq

namespace Bucket

def empty (H : Cells α) : Bucket w α := ⟨List.replicate w H.zero, List.length_replicate⟩

def set (b : Bucket w α) (j : Nat) (x : α) : Bucket w α :=
  ⟨b.cells.set j x, by simp [b.size]⟩

def map (f : α → α) (b : Bucket w α) : Bucket w α := ⟨b.cells.map f, by simp [b.size]⟩

/-- The cell a kick of the draw `r` hits. -/
def victim (H : Cells α) (b : Bucket w α) (r : Nat) : α := b.cells.getD (r % w) H.zero

end Bucket

/-- What the attempt to put an item somewhere comes to. -/
inductive Put (β : Type) where
  /-- There is no free cell. -/
  | full
  /-- The item is there already. -/
  | present
  /-- The item was written into the first free cell. -/
  | stored (after : β)

namespace Put

def map {γ : Type} (f : β → γ) : Put β → Put γ
  | .full => .full
  | .present => .present
  | .stored b => .stored (f b)

end Put

/-- Write `x` into the first free cell, unless some cell holds it already. -/
def Bucket.put (H : Cells α) (b : Bucket w α) (x : α) : Put (Bucket w α) :=
  if b.cells.any (H.same x) then .present
  else match b.cells.findIdx? H.free with
    | none => .full
    | some j => .stored (b.set j x)

section Exchange

/-- Overwriting one cell exchanges one item of the row for another. -/
theorem coe_set (cells : List α) {j : Nat} (hj : j < cells.length) (x : α) :
    (↑(cells.set j x) : Multiset α) + {cells[j]} = ↑cells + {x} := by
  induction cells generalizing j with
  | nil => simp at hj
  | cons c cs ih =>
      cases j with
      | zero =>
          simp only [List.set_cons_zero, List.getElem_cons_zero, ← Multiset.cons_coe,
            ← Multiset.singleton_add]
          ac_rfl
      | succ j =>
          have hj' : j < cs.length := by simpa using hj
          simp only [List.set_cons_succ, List.getElem_cons_succ, ← Multiset.cons_coe,
            Multiset.cons_add, ih hj']

variable {H : Cells α}

theorem Bucket.put_stored {b b' : Bucket w α} {x : α} (h : b.put H x = .stored b') :
    ∃ j, ∃ hj : j < b.cells.length, H.free b.cells[j] = true ∧ b' = b.set j x := by
  unfold put at h
  split at h
  · cases h
  · split at h
    · cases h
    · rename_i j found
      obtain ⟨hj, free, -⟩ := List.findIdx?_eq_some_iff_getElem.mp found
      cases h
      exact ⟨j, hj, free, rfl⟩

theorem Bucket.put_full {b : Bucket w α} {x : α} (h : b.put H x = .full) :
    ∀ c ∈ b.cells, H.free c = false := by
  unfold put at h
  split at h
  · cases h
  · split at h
    · rename_i absent
      simpa using List.findIdx?_eq_none_iff.mp absent
    · cases h

theorem Bucket.put_present {b : Bucket w α} {x : α} (h : b.put H x = .present) :
    ∃ c ∈ b.cells, H.same x c = true := by
  unfold put at h
  split at h
  · simpa using ‹(b.cells.any _) = true›
  · split at h <;> cases h

theorem Bucket.occupied_set {b : Bucket w α} {j : Nat} (hj : j < b.cells.length) (x : α) :
    H.occupied ↑(b.set j x).cells + H.occupied {b.cells[j]} =
      H.occupied ↑b.cells + H.occupied {x} := by
  rw [← Cells.occupied_add, ← Cells.occupied_add]
  exact congrArg H.occupied (coe_set b.cells hj x)

theorem Bucket.mem_set {b : Bucket w α} {j : Nat} {x c : α} (h : c ∈ (b.set j x).cells) :
    c ∈ b.cells ∨ c = x := List.mem_or_eq_of_mem_set h

theorem Bucket.occupied_put {b b' : Bucket w α} {x : α} (hx : H.free x = false)
    (h : b.put H x = .stored b') : H.occupied ↑b'.cells = H.occupied ↑b.cells + {x} := by
  obtain ⟨j, hj, free, rfl⟩ := put_stored h
  have exchange := occupied_set (H := H) hj x
  rwa [Cells.occupied_singleton_free free, Cells.occupied_singleton hx, add_zero] at exchange

theorem Bucket.victim_eq (hw : 0 < w) (b : Bucket w α) (r : Nat) :
    ∃ hj : r % w < b.cells.length, b.victim H r = b.cells[r % w] := by
  have hj : r % w < b.cells.length := by rw [b.size]; exact Nat.mod_lt _ hw
  exact ⟨hj, by simp [victim, List.getD_eq_getElem?_getD, hj]⟩

theorem Bucket.victim_mem (hw : 0 < w) (b : Bucket w α) (r : Nat) : b.victim H r ∈ b.cells := by
  obtain ⟨hj, hit⟩ := victim_eq (H := H) hw b r
  exact hit ▸ List.getElem_mem hj

/-- Kicking a cell out exchanges the kicked item for the new one. -/
theorem Bucket.occupied_kick (hw : 0 < w) (b : Bucket w α) (r : Nat) (x : α)
    (hv : H.free (b.victim H r) = false) (hx : H.free x = false) :
    H.occupied ↑(b.set (r % w) x).cells + {b.victim H r} = H.occupied ↑b.cells + {x} := by
  obtain ⟨hj, hit⟩ := victim_eq (H := H) hw b r
  have exchange := occupied_set (H := H) hj x
  rw [hit] at hv ⊢
  rwa [Cells.occupied_singleton hv, Cells.occupied_singleton hx] at exchange

end Exchange

end TwoLayer
