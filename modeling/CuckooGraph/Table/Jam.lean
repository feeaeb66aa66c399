import CuckooGraph.Table.Kick

/-! # Jammed tables

Where all items have the same two buckets and both are full, a chain of kicks does
nothing but move three items round: the one which is inserted and the two which
are kicked out in turns.
-/

namespace TwoLayer

variable {α : Type} {w : Nat}

/-- What stands still in a jammed table: all but the first cells of the two buckets. -/
structure Jam (w : Nat) (α : Type) where
  tail1 : List α
  tail2 : List α
  size1 : tail1.length + 1 = w
  size2 : tail2.length + 1 = w
  rest1 : Layer w α
  rest2 : Layer w α
  num : Int

namespace Jam

variable (j : Jam w α)

def bucket1 (a : α) : Bucket w α := ⟨a :: j.tail1, j.size1⟩

def bucket2 (b : α) : Bucket w α := ⟨b :: j.tail2, j.size2⟩

/-- The table with `a` and `b` in the first cells. -/
def table (a b : α) : Table w α := ⟨j.bucket1 a :: j.rest1, j.bucket2 b :: j.rest2, j.num⟩

/-- The items which `p` says may go round: none of them is free or the same as another one. -/
structure Movers (H : Cells α) (p : α → Prop) : Prop where
  home1 : ∀ x, p x → H.hash true x % (j.rest1.length + 1) = 0
  home2 : ∀ x, p x → H.hash false x % (j.rest2.length + 1) = 0
  full : ∀ c ∈ j.tail1 ++ j.tail2, H.free c = false
  used : ∀ x, p x → H.free x = false
  apart : ∀ x, p x → ∀ c ∈ j.tail1 ++ j.tail2, H.same x c = false
  other : ∀ x y, p x → p y → x ≠ y → H.same x y = false

variable {j} {H : Cells α} {p : α → Prop} {rand : Nat → Nat} {a b x : α}

theorem pos_table (k : j.Movers H p) (hx : p x) (flag : Bool) :
    Layer.pos (H.hash flag) ((j.table a b).side flag) x = 0 :=
  match flag with
  | true => k.home1 x hx
  | false => k.home2 x hx

/-- A full bucket does not take an item which it does not hold. -/
theorem put_full {l : Layer w α} {hash : α → Nat} (here : Layer.pos hash l x = 0) {b : Bucket w α}
    (first : Layer.bucketAt H l 0 = b) (full : ∀ c ∈ b.cells, H.free c = false) (apart : ∀ c ∈ b.cells, H.same x c = false) :
    Layer.put H hash l x = .full := by
  have none : b.cells.findIdx? H.free = none := List.findIdx?_eq_none_iff.mpr full
  have absent : b.cells.any (H.same x) = false := List.any_eq_false.mpr fun c hc => by simp [apart c hc]
  rw [Layer.put, here, first, Bucket.put, none, absent]
  rfl

theorem put_bucket1 (k : j.Movers H p) (hx : p x) (ha : p a) (other : x ≠ a) :
    Layer.put H (H.hash true) (j.table a b).layer1 x = .full := by
  refine put_full (b := j.bucket1 a) (pos_table k hx true) rfl ?_ ?_
  · exact List.forall_mem_cons.mpr ⟨k.used a ha, fun c hc => k.full c (List.mem_append_left _ hc)⟩
  · exact List.forall_mem_cons.mpr ⟨k.other x a hx ha other, fun c hc => k.apart x hx c (List.mem_append_left _ hc)⟩

theorem put_bucket2 (k : j.Movers H p) (hx : p x) (hb : p b) (other : x ≠ b) :
    Layer.put H (H.hash false) (j.table a b).layer2 x = .full := by
  refine put_full (b := j.bucket2 b) (pos_table k hx false) rfl ?_ ?_
  · exact List.forall_mem_cons.mpr ⟨k.used b hb, fun c hc => k.full c (List.mem_append_right _ hc)⟩
  · exact List.forall_mem_cons.mpr ⟨k.other x b hx hb other, fun c hc => k.apart x hx c (List.mem_append_right _ hc)⟩

section Turns

variable (k : j.Movers H p) (first : ∀ n, rand n = 0)

include k first

theorem swap1 (hx : p x) (draws : Nat) : Table.swap H (j.table a b) true (rand draws) x = j.table x b ∧
    Table.kicked H (j.table a b) true (rand draws) x = a := by
  rw [Table.swap, Table.kicked, pos_table k hx, first, Nat.zero_mod]
  exact ⟨rfl, rfl⟩

theorem swap2 (hx : p x) (draws : Nat) : Table.swap H (j.table a b) false (rand draws) x = j.table a x ∧
    Table.kicked H (j.table a b) false (rand draws) x = b := by
  rw [Table.swap, Table.kicked, pos_table k hx, first, Nat.zero_mod]
  exact ⟨rfl, rfl⟩

/-- Two kicks move the three items on by one. -/
theorem kickLoop_turn (ha : p a) (hb : p b) (hx : p x) (ab : a ≠ b) (bx : b ≠ x) (times draws : Nat) :
    Table.kickLoop H rand (times + 2) true (j.table a b) draws x =
      Table.kickLoop H rand times true (j.table x a) (draws + 2) b := by
  rw [Table.kickLoop_succ, (swap1 k first hx draws).1, (swap1 k first hx draws).2]
  have full : Layer.put H (H.hash !true) ((j.table a b).side !true) a = .full := put_bucket2 k ha hb ab
  rw [full]
  simp only [Bool.not_true]
  rw [Table.kickLoop_succ, (swap2 k first ha (draws + 1)).1, (swap2 k first ha (draws + 1)).2]
  have full' : Layer.put H (H.hash !false) ((j.table x b).side !false) b = .full := put_bucket1 k hb hx bx
  rw [full']
  rfl

/-- After each six kicks the table is as it was. -/
theorem kickLoop_jammed (ha : p a) (hb : p b) (hx : p x) (ab : a ≠ b) (bx : b ≠ x) (xa : x ≠ a) (n draws : Nat) :
    Table.kickLoop H rand (6 * n + 2) true (j.table a b) draws x = ⟨j.table x a, draws + (6 * n + 2), some b⟩ := by
  induction n generalizing draws with
  | zero => rw [kickLoop_turn k first ha hb hx ab bx, Table.kickLoop]
  | succ n ih =>
      have more : 6 * (n + 1) + 2 = 6 * n + 2 + 2 + 2 + 2 := by omega
      rw [more, kickLoop_turn k first ha hb hx ab bx, kickLoop_turn k first hx ha hb xa ab,
        kickLoop_turn k first hb hx ha bx xa, ih]
      simp only [Outcome.mk.injEq, true_and, and_true]
      omega

/-- An insertion puts its item into the first bucket, and what was there into the second. -/
theorem insert_jammed (ha : p a) (hb : p b) (hx : p x) (ab : a ≠ b) (bx : b ≠ x) (xa : x ≠ a) (n draws : Nat) :
    (j.table a b).insert H (6 * n + 2) rand draws x = ⟨j.table x a, draws + (6 * n + 2), some b⟩ := by
  rw [Table.insert, put_bucket1 k hx ha xa]
  simp only
  rw [put_bucket2 k hx hb bx.symm]
  exact kickLoop_jammed k first ha hb hx ab bx xa n draws

end Turns

end Jam

end TwoLayer
