import CuckooGraph.Table.Bulk
import CuckooGraph.Table.Compress
import CuckooGraph.Table.Heap

/-! # Towers of up to three tables

The first table of a tower has doubled and halved any number of times, the other
two have half of its buckets. This ratio is what merging three tables into one
relies on: every bucket of the smaller tables falls onto one of the larger.
-/

namespace TwoLayer

variable {α : Type} {w : Nat} {H : Cells α}

namespace Table

/-- The layers have doubled the same number of times. -/
def Doubled (l1 l2 : Nat) (c : Table w α) : Prop :=
  ∃ k, c.len1 = l1 * 2 ^ k ∧ c.len2 = l2 * 2 ^ k

/-- The layers have doubled, and halved, the same number of times, and have two
    buckets at least. -/
structure Scaled (l1 l2 : Nat) (c : Table w α) : Prop where
  wide : 2 ≤ c.len1 ∧ 2 ≤ c.len2
  ratio : ∃ j k, c.len1 * 2 ^ j = l1 * 2 ^ k ∧ c.len2 * 2 ^ j = l2 * 2 ^ k

/-- `HalfOf c0 c`: the layers of `c` are half as long as those of `c0`. -/
def HalfOf (c0 c : Table w α) : Prop := c.len1 = c0.len1 / 2 ∧ c.len2 = c0.len2 / 2

section Sizes

variable {l1 l2 : Nat} {c c' c0 c0' : Table w α}

theorem Scaled.ready (h : c.Scaled l1 l2) : c.Ready := by
  obtain ⟨h1, h2⟩ := h.wide
  exact ready_of_len (by omega) (by omega)

theorem ready_new (h : (new H l1 l2 : Table w α).Ready) : 0 < l1 ∧ 0 < l2 := by
  have r1 : 0 < (new H l1 l2 : Table w α).len1 := h true
  have r2 : 0 < (new H l1 l2 : Table w α).len2 := h false
  exact ⟨by simpa using r1, by simpa using r2⟩

theorem scaled_new (h1 : 2 ≤ l1) (h2 : 2 ≤ l2) : (new H l1 l2 : Table w α).Scaled l1 l2 :=
  ⟨by simpa using ⟨h1, h2⟩, 0, 0, by simp, by simp⟩

theorem SameSize.scaled (h : SameSize c c') (hc : c.Scaled l1 l2) : c'.Scaled l1 l2 := by
  obtain ⟨wide, ratio⟩ := hc
  rw [← h.len1, ← h.len2] at wide ratio
  exact ⟨wide, ratio⟩

theorem SameSize.halfOf (h0 : SameSize c0 c0') (h : SameSize c c') (hc : c0.HalfOf c) :
    c0'.HalfOf c' := by
  simpa only [HalfOf, h0.len1, h0.len2, h.len1, h.len2] using hc

theorem HalfOf.ready (h : c0.HalfOf c) (base : c0.Scaled l1 l2) : c.Ready := by
  obtain ⟨h1, h2⟩ := h
  obtain ⟨w1, w2⟩ := base.wide
  exact ready_of_len (by omega) (by omega)

theorem HalfOf.side (h : c0.HalfOf c) (flag : Bool) :
    (c.side flag).length = (c0.side flag).length / 2 := by
  cases flag
  · exact h.2
  · exact h.1

/-- A second table is made with half of the buckets of the first. -/
theorem halfOf_new (c0 : Table w α) : c0.HalfOf (new H (c0.len1 / 2) (c0.len2 / 2)) := by
  simp only [HalfOf, new_len1, new_len2, and_self]

/-- A third table is made as large as the second. -/
theorem halfOf_like (h : c0.HalfOf c) : c0.HalfOf (new H c.len1 c.len2) := by
  simpa only [HalfOf, new_len1, new_len2] using h

theorem scaled_of_double (h : c.Scaled l1 l2)
    (twice : ∀ flag, (c'.side flag).length = (c.side flag).length * 2) : c'.Scaled l1 l2 := by
  obtain ⟨⟨w1, w2⟩, j, k, r1, r2⟩ := h
  have t1 : c'.len1 = c.len1 * 2 := twice true
  have t2 : c'.len2 = c.len2 * 2 := twice false
  refine ⟨⟨by omega, by omega⟩, j, k + 1, ?_, ?_⟩
  · rw [t1, mul_right_comm, r1]
    ring
  · rw [t2, mul_right_comm, r2]
    ring

theorem even_side (even : 2 ∣ c.len1 ∧ 2 ∣ c.len2) (flag : Bool) :
    (c.side flag).length = (c.side flag).length / 2 * 2 := by
  cases flag
  · exact (Nat.div_mul_cancel even.2).symm
  · exact (Nat.div_mul_cancel even.1).symm

/-- Halving is exact for layers of even length. -/
theorem scaled_of_halve (h : c.Scaled l1 l2) (even : 2 ∣ c.len1 ∧ 2 ∣ c.len2)
    (large : 4 ≤ c.len1 ∧ 4 ≤ c.len2)
    (half : ∀ flag, (c'.side flag).length = (c.side flag).length / 2) : c'.Scaled l1 l2 := by
  obtain ⟨-, j, k, r1, r2⟩ := h
  obtain ⟨e1, e2⟩ := even
  have t1 : c'.len1 = c.len1 / 2 := half true
  have t2 : c'.len2 = c.len2 / 2 := half false
  have d1 : c'.len1 * 2 = c.len1 := by omega
  have d2 : c'.len2 * 2 = c.len2 := by omega
  refine ⟨⟨by omega, by omega⟩, j + 1, k, ?_, ?_⟩
  · rw [← r1, ← d1]
    ring
  · rw [← r2, ← d2]
    ring

/-- The ratio of the layers is that of the smallest table. -/
theorem Scaled.le (h : c.Scaled l1 l2) (le : l2 ≤ l1) : c.len2 ≤ c.len1 := by
  obtain ⟨-, j, k, r1, r2⟩ := h
  apply Nat.le_of_mul_le_mul_right (c := 2 ^ j) _ (by positivity)
  rw [r1, r2]
  exact Nat.mul_le_mul_right _ le

/-- A table scaled from two powers of 2 has doubled only. -/
theorem Scaled.doubled (h : c.Scaled 4 2) : c.Doubled 4 2 := by
  obtain ⟨⟨-, w2⟩, j, k, r1, r2⟩ := h
  have twice : c.len1 = c.len2 * 2 := by
    apply Nat.eq_of_mul_eq_mul_right (Nat.two_pow_pos j)
    rw [r1, mul_right_comm, r2]
    ring
  have power : c.len2 ∣ 2 ^ (k + 1) := ⟨2 ^ j, by rw [r2]; ring⟩
  obtain ⟨n, -, size⟩ := (Nat.dvd_prime_pow Nat.prime_two).mp power
  cases n with
  | zero => omega
  | succ n => exact ⟨n, by rw [twice, size]; ring, by rw [size]; ring⟩

theorem Doubled.even (h : c.Doubled 4 2) : 2 ∣ c.len1 ∧ 2 ∣ c.len2 := by
  obtain ⟨k, h1, h2⟩ := h
  rw [h1, h2]
  exact ⟨⟨2 * 2 ^ k, by ring⟩, ⟨2 ^ k, rfl⟩⟩

end Sizes

end Table

/-- The tables which exist form a prefix, and the sizes are in ratio. -/
inductive Three.Tower (l1 l2 : Nat) : Three (Table w α) → Prop
  | none : Tower l1 l2 ⟨none, none, none⟩
  | one {c0 : Table w α} (base : c0.Scaled l1 l2) : Tower l1 l2 ⟨some c0, none, none⟩
  | two {c0 c1 : Table w α} (base : c0.Scaled l1 l2) (half1 : c0.HalfOf c1) :
      Tower l1 l2 ⟨some c0, some c1, none⟩
  | three {c0 c1 c2 : Table w α} (base : c0.Scaled l1 l2) (half1 : c0.HalfOf c1)
      (half2 : c0.HalfOf c2) : Tower l1 l2 ⟨some c0, some c1, some c2⟩

namespace Three

/-- What the tables of a tower hold together. -/
def stored (H : Cells α) (t : Three (Table w α)) : Multiset α :=
  (t.toList.map fun c => c.stored H).sum

section Stored

variable {c0 c1 c2 : Table w α}

@[simp] theorem stored_none : stored H (⟨none, none, none⟩ : Three (Table w α)) = 0 := rfl

@[simp] theorem stored_one : stored H ⟨some c0, none, none⟩ = c0.stored H := by
  simp [stored, toList]

@[simp] theorem stored_two : stored H ⟨some c0, some c1, none⟩ = c0.stored H + c1.stored H := by
  simp [stored, toList]

@[simp] theorem stored_three :
    stored H ⟨some c0, some c1, some c2⟩ = c0.stored H + (c1.stored H + c2.stored H) := by
  simp [stored, toList]

theorem mem_stored {t : Three (Table w α)} {x : α} :
    x ∈ t.stored H ↔ ∃ c ∈ t.toList, x ∈ c.stored H := by
  rw [stored]
  induction t.toList with
  | nil => simp
  | cons c cs ih => simp [ih]

theorem stored_le {t : Three (Table w α)} {c : Table w α} (member : c ∈ t.toList) :
    c.stored H ≤ t.stored H :=
  List.single_le_sum (fun _ _ => zero_le) _ (List.mem_map_of_mem member)

/-- A table is put in, exchanged or taken out. -/
theorem stored_exchange {t : Three (Table w α)} {i : Nat} (inside : i < 3) (s : Option (Table w α)) :
    (t.set i s).stored H + (t.get i).elim 0 (Table.stored H) = t.stored H + s.elim 0 (Table.stored H) := by
  obtain ⟨s0, s1, s2⟩ := t
  have sum : ∀ o : Option (Table w α), (o.toList.map (Table.stored H)).sum = o.elim 0 (Table.stored H) := by
    intro o
    cases o <;> simp
  interval_cases i <;>
    · simp only [get, stored, set, toList, List.map_append, List.sum_append, sum]
      ac_rfl

/-- Exchanging one table exchanges what it holds. -/
theorem stored_set {t : Three (Table w α)} {i : Nat} {c c' : Table w α} (found : t.get i = some c) :
    (t.set i (some c')).stored H + c.stored H = t.stored H + c'.stored H := by
  obtain ⟨s0, s1, s2⟩ := t
  have inside := get_lt found
  interval_cases i <;>
    · simp only [get] at found
      subst found
      simp only [stored, set, toList, Option.toList_some, List.map_append, List.map_cons, List.map_nil,
        List.sum_append, List.sum_cons, List.sum_nil, add_zero]
      ac_rfl

end Stored

variable {l1 l2 : Nat} {t : Three (Table w α)}

/-- A table may be exchanged for another one of its size. -/
theorem Tower.set (h : t.Tower l1 l2) {i : Nat} {c c' : Table w α} (found : t.get i = some c)
    (size : Table.SameSize c c') : (t.set i (some c')).Tower l1 l2 := by
  have inside := get_lt found
  cases h with
  | none => interval_cases i <;> cases found
  | one base =>
      interval_cases i <;> cases found
      exact .one (size.scaled base)
  | two base half1 =>
      interval_cases i <;> cases found
      · exact .two (size.scaled base) (size.halfOf (.refl _) half1)
      · exact .two base ((Table.SameSize.refl _).halfOf size half1)
  | three base half1 half2 =>
      interval_cases i <;> cases found
      · exact .three (size.scaled base) (size.halfOf (.refl _) half1) (size.halfOf (.refl _) half2)
      · exact .three base ((Table.SameSize.refl _).halfOf size half1) half2
      · exact .three base half1 ((Table.SameSize.refl _).halfOf size half2)

theorem Tower.ready (h : t.Tower l1 l2) : ∀ c ∈ t.toList, c.Ready := by
  cases h with
  | none => simp [toList]
  | one base => simpa [toList] using base.ready
  | two base half1 => simpa [toList] using ⟨base.ready, half1.ready base⟩
  | three base half1 half2 =>
      simpa [toList] using ⟨base.ready, half1.ready base, half2.ready base⟩

end Three

end TwoLayer
