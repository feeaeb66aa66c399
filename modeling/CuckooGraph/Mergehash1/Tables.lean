import CuckooGraph.Mergehash1
import CuckooGraph.Table.Tower

/-! # The tables of `mergehash1`

What the operations on one table do with its keys, and that none of them reduces
a hash by 0 while both layers have a bucket.
-/

namespace CuckooGraph

open TwoLayer

variable {E : Env} {s1 s2 : Int} {x : Key}

theorem keyCells_free : (keyCells E s1 s2).free x = false ↔ x ≠ 0 := by simp [keyCells]

theorem keyCells_lawful (E : Env) (s1 s2 : Int) : (keyCells E s1 s2).Lawful := by
  refine ⟨rfl, fun x y hx same => ?_⟩
  obtain rfl : x = y := by simpa [keyCells] using same
  exact hx

theorem keyCells_scan_lawful (E : Env) (s1 s2 : Int) : (keyCells E s1 s2).scan.Lawful := keyCells_lawful E s1 s2

theorem keyCells_agree (cells : List Key) : (keyCells E s1 s2).Agree cells := fun _ _ => rfl

/-- Keys without repetitions are apart. -/
theorem keyCells_apart {s : Multiset Key} (nodup : s.Nodup) : (keyCells E s1 s2).Apart s := by
  intro a b le
  have other : a ≠ b := by
    rintro rfl
    exact Multiset.nodup_iff_le.mp nodup a le
  simpa [keyCells] using other

namespace KeyTable

/-- A table whose first layer is twice the second, with a power of 2 of buckets in each. -/
def Shape (t : KeyTable) : Prop := ∃ k, t.len1 = 2 ^ (k + 1) ∧ t.len2 = 2 ^ k

/-- A table which is in order. -/
structure Fine (H : Cells Key) (t : KeyTable) : Prop where
  shape : Shape t
  placed : t.Placed H
  counted : t.Counted H

variable {t t' : KeyTable}

theorem Shape.ready (shape : Shape t) : t.Ready := by
  obtain ⟨k, h1, h2⟩ := shape
  exact Table.ready_of_len (by rw [h1]; positivity) (by rw [h2]; positivity)

theorem Shape.same (shape : Shape t) (size : Table.SameSize t t') : Shape t' := by
  obtain ⟨k, h1, h2⟩ := shape
  exact ⟨k, size.len1.trans h1, size.len2.trans h2⟩

theorem shape_new (H : Cells Key) {l1 l2 k : Nat} (h1 : l1 = 2 ^ (k + 1)) (h2 : l2 = 2 ^ k) :
    Shape (Table.new H l1 l2) := ⟨k, by rw [Table.new_len1, h1], by rw [Table.new_len2, h2]⟩

theorem Shape.double (shape : Shape t) (twice : ∀ flag, (t'.side flag).length = (t.side flag).length * 2) :
    Shape t' := by
  obtain ⟨k, h1, h2⟩ := shape
  have t1 : t'.len1 = t.len1 * 2 := twice true
  have t2 : t'.len2 = t.len2 * 2 := twice false
  exact ⟨k + 1, by rw [t1, h1]; ring, by rw [t2, h2]; ring⟩

/-- From four buckets on, both layers are even, and half of them is left. -/
theorem Shape.even (shape : Shape t) (large : minc2 ≤ t.len2) :
    ∀ flag, (t.side flag).length = (t.side flag).length / 2 * 2 := by
  obtain ⟨k, h1, h2⟩ := shape
  obtain ⟨k, rfl⟩ : ∃ n, k = n + 1 := by
    cases k with
    | zero =>
        rw [h2] at large
        exact absurd large (by decide)
    | succ k => exact ⟨k, rfl⟩
  exact Table.even_side ⟨⟨2 ^ (k + 1), by rw [h1]; ring⟩, ⟨2 ^ k, by rw [h2]; ring⟩⟩

theorem Shape.half (shape : Shape t) (large : minc2 ≤ t.len2)
    (half : ∀ flag, (t'.side flag).length = (t.side flag).length / 2) : Shape t' := by
  obtain ⟨k, h1, h2⟩ := shape
  obtain ⟨k, rfl⟩ : ∃ n, k = n + 1 := by
    cases k with
    | zero =>
        rw [h2] at large
        exact absurd large (by decide)
    | succ k => exact ⟨k, rfl⟩
  have t1 : t'.len1 = t.len1 / 2 := half true
  have t2 : t'.len2 = t.len2 / 2 := half false
  exact ⟨k, by rw [t1, h1]; omega, by rw [t2, h2]; omega⟩

section Query

theorem queryIn_iff {H : Cells Key} {flag : Bool} : queryIn H t flag x = true ↔ x ∈ (t.bucketOf H flag x).cells := by
  simp [queryIn]

variable (ready : t.Ready) (placed : t.Placed (keyCells E s1 s2)) (known : x ≠ 0)

include ready placed known

theorem query_iff : query (keyCells E s1 s2) t x = true ↔ x ∈ t.stored (keyCells E s1 s2) := by
  rw [query, Bool.or_eq_true, queryIn_iff, queryIn_iff]
  constructor
  · intro here
    refine (Table.mem_stored t).mpr ⟨?_, keyCells_free.mpr known⟩
    exact here.elim (Table.mem_of_bucketOf ready) (Table.mem_of_bucketOf ready)
  · intro member
    obtain ⟨flag, here⟩ := Table.mem_bucketOf placed member fun _ => rfl
    cases flag
    · exact .inr here
    · exact .inl here

end Query

section Delete

/-- `t'` is `t` without the key. -/
structure Lost (H : Cells Key) (t : KeyTable) (x : Key) (t' : KeyTable) : Prop where
  size : Table.SameSize t t'
  placed : t'.Placed H
  stored : t'.stored H + {x} = t.stored H
  counted : t.Counted H → t'.Counted H

variable (ready : t.Ready) (placed : t.Placed (keyCells E s1 s2)) (known : x ≠ 0)

include ready placed known

theorem delIn_some {flag : Bool} (done : delIn (keyCells E s1 s2) t flag x = some t') :
    Lost (keyCells E s1 s2) t x t' := by
  obtain ⟨j, found, rfl⟩ := Option.map_eq_some_iff.mp done
  obtain ⟨c, same, cell⟩ := Table.at_of_findIdx ready found
  obtain rfl : c = x := by simpa using same
  obtain ⟨size, placed, stored, counted⟩ := Table.clear cell placed (keyCells_free.mpr known) (z := (0 : Key)) rfl
  exact ⟨size, placed, stored, counted⟩

omit ready placed known in
theorem delIn_none {H : Cells Key} {flag : Bool} (missing : delIn H t flag x = none) :
    x ∉ (t.bucketOf H flag x).cells := by
  simp only [delIn, Option.map_eq_none_iff] at missing
  intro member
  have unseen := List.findIdx?_eq_none_iff.mp missing x member
  simp at unseen

theorem del_some (done : del (keyCells E s1 s2) t x = some t') : Lost (keyCells E s1 s2) t x t' := by
  unfold del at done
  split at done
  · rename_i first
    cases done
    exact delIn_some ready placed known first
  · exact delIn_some ready placed known done

omit ready known in
theorem del_none (missing : del (keyCells E s1 s2) t x = none) : x ∉ t.stored (keyCells E s1 s2) := by
  intro member
  obtain ⟨flag, here⟩ := Table.mem_bucketOf placed member fun _ => rfl
  unfold del at missing
  split at missing
  · cases missing
  · rename_i first
    cases flag
    · exact delIn_none missing here
    · exact delIn_none first here

end Delete

section Faults

variable {H : Cells Key} (ready : t.Ready)

include ready

theorem len_ne_zero : t.len1 ≠ 0 ∧ t.len2 ≠ 0 := ⟨(ready true).ne', (ready false).ne'⟩

theorem queryFault_ready (x : Key) : queryFault H t x = false := by
  obtain ⟨h1, h2⟩ := len_ne_zero ready
  simp [queryFault, h1, h2]

theorem insertFault_ready (x : Key) : insertFault H t x = false := by
  obtain ⟨h1, h2⟩ := len_ne_zero ready
  unfold insertFault
  split <;> simp [h1, h2]

theorem insertAllFault_ready (rand : Nat → Nat) {xs : List Key} (known : ∀ x ∈ xs, x ≠ 0) (draws : Nat) :
    insertAllFault (keyCells E s1 s2) rand xs t draws = false := by
  induction xs generalizing t draws with
  | nil => rfl
  | cons x xs ih =>
      have one := Table.insert_settled (keyCells_lawful E s1 s2) (by decide : 0 < bup) ready kicktimes rand draws
        (keyCells_free.mpr (known x List.mem_cons_self))
      rw [insertAllFault, insertFault_ready ready, Bool.false_or]
      exact ih (one.size.ready ready) (fun y hy => known y (List.mem_cons_of_mem x hy)) _

omit ready in
theorem findFault_ready {ts : List KeyTable} (ready : ∀ t ∈ ts, t.Ready) (x : Key) : findFault H x ts = false := by
  induction ts with
  | nil => rfl
  | cons t ts ih =>
      rw [findFault, queryFault_ready (ready t List.mem_cons_self),
        ih fun t ht => ready t (List.mem_cons_of_mem _ ht), Bool.and_false, Bool.or_false]

end Faults

section Growth

variable (fine : Fine (keyCells E s1 s2) t) (rand : Nat → Nat)

theorem fine_new {l1 l2 k : Nat} (h1 : l1 = 2 ^ (k + 1)) (h2 : l2 = 2 ^ k) :
    Fine (keyCells E s1 s2) (Table.new (keyCells E s1 s2) l1 l2) :=
  ⟨shape_new _ h1 h2, Table.placed_new (keyCells_lawful E s1 s2) l1 l2, Table.counted_new (keyCells_lawful E s1 s2) l1 l2⟩

include fine

theorem fine_lost (known : x ≠ 0) (done : del (keyCells E s1 s2) t x = some t') :
    Fine (keyCells E s1 s2) t' ∧ t'.stored (keyCells E s1 s2) + {x} = t.stored (keyCells E s1 s2) := by
  have lost := del_some fine.shape.ready fine.placed known done
  exact ⟨⟨fine.shape.same lost.size, lost.placed, lost.counted fine.counted⟩, lost.stored⟩

/-- A table with what it hands back, as many keys as before and those of `xs`. -/
theorem fine_insertAll {xs : List Key} (known : ∀ x ∈ xs, x ≠ 0)
    (nodup : (t.stored (keyCells E s1 s2) + ↑xs).Nodup) (draws : Nat) :
    let r := Table.insertAll (keyCells E s1 s2) kicktimes rand xs t draws
    Fine (keyCells E s1 s2) r.table ∧
      r.table.stored (keyCells E s1 s2) + ↑r.left = t.stored (keyCells E s1 s2) + ↑xs := by
  have apart : (keyCells E s1 s2).Apart _ := keyCells_apart nodup
  have all := Table.insertAll_settled (keyCells_lawful E s1 s2) (by decide : 0 < bup) kicktimes rand
    (fun x hx => keyCells_free.mpr (known x hx)) fine.shape.ready draws
  exact ⟨⟨fine.shape.same all.size, all.placed fine.placed, all.counted apart fine.counted⟩, all.stored apart⟩

theorem fine_insert (known : x ≠ 0) (nodup : (x ::ₘ t.stored (keyCells E s1 s2)).Nodup) (draws : Nat) :
    let r := t.insert (keyCells E s1 s2) kicktimes rand draws x
    Fine (keyCells E s1 s2) r.table ∧
      r.table.stored (keyCells E s1 s2) + ↑r.left.toList = x ::ₘ t.stored (keyCells E s1 s2) := by
  have apart : (keyCells E s1 s2).Apart _ := keyCells_apart nodup
  have one := Table.insert_settled (keyCells_lawful E s1 s2) (by decide : 0 < bup) fine.shape.ready kicktimes rand draws
    (keyCells_free.mpr known)
  refine ⟨⟨fine.shape.same one.size, one.placed fine.placed, one.counted apart fine.counted⟩, ?_⟩
  rw [add_comm]
  exact one.together apart

theorem fine_expand : Fine (keyCells E s1 s2) (Mergehash1.expand (keyCells E s1 s2) t) ∧
    (Mergehash1.expand (keyCells E s1 s2) t).stored (keyCells E s1 s2) = t.stored (keyCells E s1 s2) := by
  have side : ∀ flag, (Mergehash1.expand (keyCells E s1 s2) t).side flag =
      Layer.double (keyCells E s1 s2) ((keyCells E s1 s2).hash flag) (t.side flag) := by
    intro flag
    cases flag <;> rfl
  have stored : (Mergehash1.expand (keyCells E s1 s2) t).stored (keyCells E s1 s2) =
      t.stored (keyCells E s1 s2) := by
    rw [Table.stored_sides _ true, Table.stored_sides t true, side, side,
      Layer.occupied_double (keyCells_lawful E s1 s2) _ (keyCells_agree _),
      Layer.occupied_double (keyCells_lawful E s1 s2) _ (keyCells_agree _)]
  refine ⟨⟨fine.shape.double fun flag => ?_, fun flag => ?_, ?_⟩, stored⟩
  · rw [side, Layer.length_double]
  · rw [side]
    exact Layer.placed_double (keyCells_lawful E s1 s2) _ (keyCells_agree _) (fine.placed flag)
  · rw [Table.Counted, stored]
    exact fine.counted

theorem fine_compress (large : minc2 ≤ t.len2) (nodup : (t.stored (keyCells E s1 s2)).Nodup) (draws : Nat) :
    let r := Table.compress (keyCells E s1 s2) kicktimes rand t draws
    Fine (keyCells E s1 s2) r.table ∧
      r.table.stored (keyCells E s1 s2) + ↑r.left = t.stored (keyCells E s1 s2) := by
  have apart : (keyCells E s1 s2).Apart _ := keyCells_apart nodup
  have halved := Table.compress_settled (keyCells_lawful E s1 s2) (keyCells_scan_lawful E s1 s2)
    (by decide : 0 < bup) kicktimes rand (keyCells_agree _) (fine.shape.even large) fine.shape.ready draws
  exact ⟨⟨fine.shape.half large halved.size, halved.placed fine.placed, halved.counted apart fine.counted⟩,
    halved.stored apart⟩

/-- The halved table has buckets in both layers, too. -/
theorem compressFault (large : minc2 ≤ t.len2) (draws : Nat) :
    insertAllFault (keyCells E s1 s2) rand
      ((Layer.halve (keyCells E s1 s2) t.layer1).2 ++ (Layer.halve (keyCells E s1 s2) t.layer2).2)
      ⟨(Layer.halve (keyCells E s1 s2) t.layer1).1, (Layer.halve (keyCells E s1 s2) t.layer2).1, 0⟩ draws = false := by
  have even := fine.shape.even large
  have halves : ∀ flag, Layer.HalveSettled (keyCells E s1 s2) ((keyCells E s1 s2).hash flag) (t.side flag)
      (Layer.halve (keyCells E s1 s2) (t.side flag)) := fun flag =>
    Layer.halve_settled (keyCells_scan_lawful E s1 s2) (keyCells_agree (t.side flag).cells) (even flag)
  refine insertAllFault_ready ?_ rand (fun x hx => ?_) draws
  · have room : ∀ flag, 0 < (Layer.halve (keyCells E s1 s2) (t.side flag)).1.length := by
      intro flag
      have positive := fine.shape.ready flag
      have whole := even flag
      rw [(halves flag).size]
      omega
    intro flag
    cases flag
    · exact room false
    · exact room true
  · rcases List.mem_append.mp hx with hx | hx
    · exact keyCells_free.mp ((halves true).queue x hx).2
    · exact keyCells_free.mp ((halves false).queue x hx).2

end Growth

end KeyTable

end CuckooGraph
