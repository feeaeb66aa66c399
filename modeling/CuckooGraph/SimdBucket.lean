import CuckooGraph.Avx2
import CuckooGraph.Mergehash1.Tables

/-! # The two versions of `Bucket`

`Cuckoo.h` has `Bucket::insert`, `del` and `query` as loops over the cells and, under
`USING_SIMD`, as comparisons of all 8 cells at once. Both find the first cell of a
kind, and so does the bucket of the tables.
-/

namespace CuckooGraph

open TwoLayer Avx2

/-- `class Bucket`, of which the cells are `int`s. -/
abbrev KeyBucket := Bucket bup (BitVec 32)

namespace KeyBucket

def cell (b : KeyBucket) (i : Nat) : BitVec 32 := b.cells.getD i 0#32

section Scalar

/-- `for (int i = 0; i < bup; ++i)`, as far as the first pass which returns. -/
def firstPass {ρ : Type} (f : Nat → Option ρ) : Option ρ := (List.range bup).findSome? f

variable (b : KeyBucket) (key : BitVec 32)

def query : Int := (firstPass fun i => if b.cell i = key then some 1 else none).getD 0

def del : KeyBucket × Int :=
  (firstPass fun i => if b.cell i = key then some (b.set i 0#32, 1) else none).getD (b, 0)

def insert : KeyBucket × Int :=
  if query b key ≠ 0 then (b, -1)
  else (firstPass fun i => if b.cell i = 0#32 then some (b.set i key, 1) else none).getD (b, 0)

end Scalar

section Simd

variable (b : KeyBucket) (key : BitVec 32)

/-- `*(__m256i*)bslot` -/
def load : M256i := ofLanes b.cell

/-- The mask of the cells which hold `key`. -/
def matched : BitVec 32 := mm256MovemaskPs (mm256CmpeqEpi32 (mm256Set1Epi32 key) (load b))

def querySimd : Int := if matched b key ≠ 0#32 then 1 else 0

def delSimd : KeyBucket × Int :=
  if matched b key ≠ 0#32 then
    let matchedIndex := (tzcntU32 (matched b key)).toNat
    if matchedIndex < bup then (b.set matchedIndex 0#32, 1) else (b, 0)
  else (b, 0)

def insertSimd : KeyBucket × Int :=
  if matched b key ≠ 0#32 then (b, -1)
  else if matched b 0#32 ≠ 0#32 then
    let matchedIndex := (tzcntU32 (matched b 0#32)).toNat
    if matchedIndex < bup then (b.set matchedIndex key, 1) else (b, 0)
  else (b, 0)

end Simd

section First

variable {b : KeyBucket} {key : BitVec 32}

theorem cell_eq {i : Nat} (hi : i < b.cells.length) : b.cell i = b.cells[i] := by
  simp [cell, List.getD_eq_getElem?_getD, hi]

/-- The first cell which holds `key`. -/
def first (b : KeyBucket) (key : BitVec 32) : Option Nat := b.cells.findIdx? (· == key)

theorem first_lt {j : Nat} (found : first b key = some j) : j < bup := by
  obtain ⟨inside, -⟩ := List.findIdx?_eq_some_iff_getElem.mp found
  exact inside.trans_eq b.size

/-- A loop returns at the first cell of its kind. -/
theorem findSome?_range {α ρ : Type} (l : List α) (d : α) (p : α → Prop) [DecidablePred p] (g : Nat → ρ) :
    ((List.range l.length).findSome? fun i => if p (l.getD i d) then some (g i) else none) =
      (l.findIdx? fun c => decide (p c)).map g := by
  induction l generalizing g with
  | nil => rfl
  | cons c cs ih =>
      rw [List.length_cons, List.range_succ_eq_map, List.findSome?_cons, List.findIdx?_cons]
      by_cases here : p c
      · simp [here]
      · have rest := ih fun i => g (i + 1)
        simp only [List.getD_cons_zero, here, if_false, decide_false, Bool.false_eq_true, List.findSome?_map,
          Function.comp_def, List.getD_cons_succ, Option.map_map, rest]

theorem firstPass_eq {ρ : Type} (b : KeyBucket) (key : BitVec 32) (g : Nat → ρ) :
    (firstPass fun i => if b.cell i = key then some (g i) else none) = (first b key).map g := by
  have loop := findSome?_range b.cells 0#32 (· = key) g
  rw [b.size] at loop
  exact loop

theorem matched_bits (b : KeyBucket) (key : BitVec 32) (i : Nat) :
    (matched b key).getLsbD i = b.cells[i]?.any (· == key) := by
  rw [matched, movemask_cmpeq]
  by_cases hi : i < 8
  · have inside : i < b.cells.length := hi.trans_eq b.size.symm
    rw [lane_set1 key hi, load, lane_ofLanes _ hi, cell_eq inside, List.getElem?_eq_getElem inside]
    simp [hi, eq_comm]
  · rw [List.getElem?_eq_none (by rw [b.size]; exact Nat.le_of_not_lt hi)]
    simp [hi]

theorem first_eq (b : KeyBucket) (key : BitVec 32) :
    first b key = if matched b key = 0#32 then none else some (matched b key).ctz.toNat :=
  findIdx?_eq_ctz (matched_bits b key)

end First

section Versions

variable (b : KeyBucket) (key v : BitVec 32)

/-- Write `v` into the first cell which holds `key`. -/
def write : KeyBucket × Int := ((first b key).map fun i => (b.set i v, 1)).getD (b, 0)

theorem query_eq : query b key = if (first b key).isSome then 1 else 0 := by
  rw [query, firstPass_eq]
  cases first b key <;> rfl

theorem del_eq : del b key = write b key 0#32 := by rw [del, firstPass_eq, write]

theorem insert_eq : insert b key = if (first b key).isSome then (b, -1) else write b 0#32 key := by
  rw [insert, firstPass_eq, query_eq, write]
  cases first b key <;> rfl

theorem isSome_first : (first b key).isSome = decide (matched b key ≠ 0#32) := by
  rw [first_eq]
  by_cases none : matched b key = 0#32 <;> simp [none]

theorem write_eq : write b key v =
    if matched b key ≠ 0#32 then
      let matchedIndex := (tzcntU32 (matched b key)).toNat
      if matchedIndex < bup then (b.set matchedIndex v, 1) else (b, 0)
    else (b, 0) := by
  have found := first_eq b key
  by_cases none : matched b key = 0#32
  · rw [if_pos none] at found
    rw [write, found, if_neg (not_not.mpr none)]
    rfl
  · rw [if_neg none] at found
    rw [write, found, if_pos none]
    exact (if_pos (first_lt found)).symm

/-- The two versions do the same to every bucket. -/
theorem simd_eq_scalar : insertSimd b key = insert b key ∧ delSimd b key = del b key ∧
    querySimd b key = query b key := by
  refine ⟨?_, ?_, ?_⟩
  · rw [insert_eq, isSome_first, write_eq]
    by_cases none : matched b key = 0#32 <;> simp [insertSimd, none]
  · rw [del_eq, write_eq]
    rfl
  · rw [query_eq, isSome_first]
    by_cases none : matched b key = 0#32 <;> simp [querySimd, none]

/-- Of two cells with the key, and of two free cells, the first. -/
example : delSimd ⟨[7, 5, 0, 5, 0, 1, 2, 3], rfl⟩ 5 = (⟨[7, 0, 0, 5, 0, 1, 2, 3], rfl⟩, 1) ∧
    insertSimd ⟨[7, 5, 0, 5, 0, 1, 2, 3], rfl⟩ 9 = (⟨[7, 5, 9, 5, 0, 1, 2, 3], rfl⟩, 1) := by decide +kernel

end Versions

section Tables

variable {E : Env} {s1 s2 : Int} (b : KeyBucket) (key : BitVec 32)

/-- The bucket as the tables have it. -/
def ints : Bucket bup Key := ⟨b.cells.map BitVec.toInt, by rw [List.length_map, b.size]⟩

theorem findIdx?_ints : (ints b).cells.findIdx? (· == key.toInt) = first b key := by
  have same : ((· == key.toInt) ∘ BitVec.toInt : BitVec 32 → Bool) = (· == key) := by
    funext c
    rw [Function.comp_apply, Bool.eq_iff_iff, beq_iff_eq, beq_iff_eq, BitVec.toInt_inj]
  rw [ints, List.findIdx?_map, same, first]

theorem any_ints : (ints b).cells.any (· == key.toInt) = (first b key).isSome := by
  rw [← findIdx?_ints, List.findIdx?_isSome]

theorem set_ints (i : Nat) : (ints b).set i key.toInt = ints (b.set i key) := by
  simp [ints, Bucket.set]

/-- `Bucket::insert` is what the tables do with a bucket, and tells it by what it returns. -/
theorem put_ints : (ints b).put (keyCells E s1 s2) key.toInt =
    match insert b key with
    | (_, -1) => .present
    | (b', 1) => .stored (ints b')
    | _ => .full := by
  have looked : (ints b).cells.any ((keyCells E s1 s2).same key.toInt) = (first b key).isSome := by
    rw [← any_ints]
    exact congrArg ((ints b).cells.any ·) (funext fun c => Bool.beq_comm)
  have vacant : (ints b).cells.findIdx? (keyCells E s1 s2).free = first b 0#32 := findIdx?_ints b 0#32
  rw [Bucket.put, looked, vacant, insert_eq, write]
  cases first b key with
  | some i => rfl
  | none =>
      cases first b 0#32 with
      | none => rfl
      | some i => simp [set_ints]

/-- `Bucket::del` clears the cell which the tables clear. -/
theorem del_ints : ((ints b).cells.findIdx? (· == key.toInt)).map ((ints b).set · 0) =
    match del b key with
    | (b', 1) => some (ints b')
    | _ => none := by
  rw [findIdx?_ints, del_eq, write]
  cases first b key with
  | none => rfl
  | some i => exact congrArg some (set_ints b 0#32 i)

theorem query_ints : (ints b).cells.any (· == key.toInt) = decide (query b key = 1) := by
  rw [any_ints, query_eq]
  cases first b key <;> rfl

/-- A table whose buckets are those of `Cuckoo.h` is a `KeyTable`: the three functions do to a bucket
    what `put`, `del` and `query` of the tables do. -/
theorem bucket_refines : ((ints b).put (keyCells E s1 s2) key.toInt =
      match insert b key with
      | (_, -1) => .present
      | (b', 1) => .stored (ints b')
      | _ => .full) ∧
    (((ints b).cells.findIdx? (· == key.toInt)).map ((ints b).set · 0) =
      match del b key with
      | (b', 1) => some (ints b')
      | _ => none) ∧
    (ints b).cells.any (· == key.toInt) = decide (query b key = 1) := ⟨put_ints b key, del_ints b key, query_ints b key⟩

end Tables

end KeyBucket

end CuckooGraph
