import CuckooGraph.Table.Merge

/-! # Merging two tables

The loop over the buckets of the first table tests both copies of a bucket and
then puts the items of the same bucket of the second table where the test names
them, so it does in turns what merging three tables does in two passes. The
rounds touch different buckets, and the turns can be reordered.
-/

namespace TwoLayer

variable {α : Type} {w : Nat}

namespace Layer

/-- Put an item into the bucket `i`. -/
def putAt (H : Cells α) (i : Nat) (x : α) (l : Layer w α) : Put (Layer w α) :=
  ((bucketAt H l i).put H x).map (l.set i)

/-- Put items into the buckets that stand beside them, without kicks. -/
def putAll (H : Cells α) : List (Nat × α) → Layer w α → Rehashed w α
  | [], l => ⟨l, 0, []⟩
  | (i, x) :: xs, l =>
      match putAt H i x l with
      | .full =>
          let rest := putAll H xs l
          { rest with queue := x :: rest.queue }
      | .present =>
          let rest := putAll H xs l
          { rest with added := rest.added + 1 }
      | .stored l =>
          let rest := putAll H xs l
          { rest with added := rest.added + 1 }

/-- Erase each item of bucket `i` of `base` from one of its copies. -/
def testCopies (H : Cells α) (hash : α → Nat) (base : Layer w α) (l : Layer w α) (i : Nat) : Layer w α :=
  let k := i + base.length
  let n := base.length * 2
  (l.set i ((bucketAt H base i).map (keepLow H hash n i))).set k ((bucketAt H base i).map (keepHigh H hash n i))

/-- The items of a bucket, with the bucket `i` or `i + n` that each goes to. -/
def destined (H : Cells α) (hash : α → Nat) (n : Nat) (other : Layer w α) (i : Nat) : List (Nat × α) :=
  ((bucketAt H other i).cells.filter fun x => !H.skip x).map fun x =>
    (if hash x % (n * 2) = i then i else i + n, x)

/-- One round of the loop over the buckets of two layers. -/
def mergeRound (H : Cells α) (hash : α → Nat) (base other : Layer w α) (r : Rehashed w α) (i : Nat) :
    Rehashed w α :=
  let s := putAll H (destined H hash base.length other i) (testCopies H hash base r.layer i)
  ⟨s.layer, r.added + s.added, r.queue ++ s.queue⟩

/-- The loop, from two copies of `base`. -/
def mergeWith (H : Cells α) (hash : α → Nat) (base other : Layer w α) : Rehashed w α :=
  (List.range base.length).foldl (mergeRound H hash base other) ⟨base ++ base, 0, []⟩

end Layer

/-- Merge two tables into a new one of twice the size of the first. -/
def Table.merge2 (H : Cells α) (times : Nat) (rand : Nat → Nat) (c1 c2 : Table w α) (draws : Nat) : Bulk w α :=
  let r1 := Layer.mergeWith H (H.hash true) c1.layer1 c2.layer1
  let r2 := Layer.mergeWith H (H.hash false) c1.layer2 c2.layer2
  Table.insertAll H times rand (r1.queue ++ r2.queue)
    ⟨r1.layer, r2.layer, c1.num + r1.added + r2.added⟩ draws

section Rounds

variable {H : Cells α} {hash : α → Nat}

namespace Layer

theorem putAt_set {l : Layer w α} {i j : Nat} (other : i ≠ j) (b : Bucket w α) (x : α) :
    putAt H i x (l.set j b) = (putAt H i x l).map (·.set j b) := by
  have bucket : bucketAt H (l.set j b) i = bucketAt H l i := by
    simp only [bucketAt, List.getD_eq_getElem?_getD, List.getElem?_set_ne other.symm]
  unfold putAt
  rw [bucket]
  cases (bucketAt H l i).put H x with
  | full => rfl
  | present => rfl
  | stored b' => exact congrArg Put.stored (List.set_comm b b' other.symm)

/-- Writing a bucket into which nothing is put can wait. -/
theorem putAll_set {j : Nat} {xs : List (Nat × α)} (apart : ∀ p ∈ xs, p.1 ≠ j) (l : Layer w α)
    (b : Bucket w α) :
    putAll H xs (l.set j b) = { putAll H xs l with layer := (putAll H xs l).layer.set j b } := by
  induction xs generalizing l with
  | nil => rfl
  | cons p xs ih =>
      have rest := ih fun q hq => apart q (List.mem_cons_of_mem p hq)
      unfold putAll
      rw [putAt_set (apart p List.mem_cons_self)]
      cases putAt H p.1 p.2 l with
      | full => simp only [Put.map, rest]
      | present => simp only [Put.map, rest]
      | stored l' => simp only [Put.map, rest]

theorem putAll_append (xs ys : List (Nat × α)) (l : Layer w α) :
    putAll H (xs ++ ys) l =
      let first := putAll H xs l
      let rest := putAll H ys first.layer
      ⟨rest.layer, first.added + rest.added, first.queue ++ rest.queue⟩ := by
  induction xs generalizing l with
  | nil => simp [putAll]
  | cons p xs ih =>
      cases tried : putAt H p.1 p.2 l with
      | full => simp [putAll, tried, ih]
      | present => simp [putAll, tried, ih, add_right_comm]
      | stored l' => simp [putAll, tried, ih, add_right_comm]

variable {base other : Layer w α}

theorem mem_destined {n i : Nat} {p : Nat × α} (h : p ∈ destined H hash n other i) : p.1 = i ∨ p.1 = i + n := by
  obtain ⟨x, -, rfl⟩ := List.mem_map.mp h
  dsimp only
  split
  · exact .inl rfl
  · exact .inr rfl

variable (H hash other) in
/-- The test of one bucket does not meet the items of another. -/
theorem putAll_testCopies {i j : Nat} (hi : i < base.length) (hj : j < base.length) (different : i ≠ j)
    (l : Layer w α) :
    let xs := destined H hash base.length other i
    putAll H xs (testCopies H hash base l j) =
      { putAll H xs l with layer := testCopies H hash base (putAll H xs l).layer j } := by
  intro xs
  have low : ∀ p ∈ xs, p.1 ≠ j := by
    intro p hp
    have place := mem_destined hp
    omega
  have high : ∀ p ∈ xs, p.1 ≠ j + base.length := by
    intro p hp
    have place := mem_destined hp
    omega
  unfold testCopies
  simp only [putAll_set high, putAll_set low]

variable (H hash other) in
theorem putAll_foldl_testCopies {i : Nat} {is : List Nat} (hi : i < base.length)
    (inside : ∀ j ∈ is, j < base.length) (different : i ∉ is) (l : Layer w α) :
    let xs := destined H hash base.length other i
    putAll H xs (is.foldl (testCopies H hash base) l) =
      { putAll H xs l with layer := is.foldl (testCopies H hash base) (putAll H xs l).layer } := by
  induction is generalizing l with
  | nil => rfl
  | cons j is ih =>
      intro xs
      have first := putAll_testCopies H hash other hi (inside j List.mem_cons_self)
        (fun same => different (same ▸ List.mem_cons_self)) l
      have rest := ih (fun k hk => inside k (List.mem_cons_of_mem j hk))
        (fun member => different (List.mem_cons_of_mem j member)) (testCopies H hash base l j)
      simp only [List.foldl_cons]
      rw [rest, first]

/-- The rounds do what all tests, and after them all insertions, would do. -/
theorem foldl_mergeRound {is : List Nat} (nodup : is.Nodup) (inside : ∀ i ∈ is, i < base.length)
    (r : Rehashed w α) :
    is.foldl (mergeRound H hash base other) r =
      let s := putAll H (is.flatMap (destined H hash base.length other))
        (is.foldl (testCopies H hash base) r.layer)
      ⟨s.layer, r.added + s.added, r.queue ++ s.queue⟩ := by
  induction is generalizing r with
  | nil => simp [putAll]
  | cons i is ih =>
      obtain ⟨fresh, nodup⟩ := List.nodup_cons.mp nodup
      have later := fun k hk => inside k (List.mem_cons_of_mem i hk)
      have here := putAll_foldl_testCopies H hash other
        (inside i List.mem_cons_self) later fresh (testCopies H hash base r.layer i)
      simp only [List.foldl_cons, List.flatMap_cons, putAll_append]
      rw [ih nodup later, here]
      simp only [mergeRound, add_assoc, List.append_assoc]

variable (H hash base) in
theorem length_foldl_testCopies (is : List Nat) (l : Layer w α) :
    (is.foldl (testCopies H hash base) l).length = l.length := by
  induction is generalizing l with
  | nil => rfl
  | cons i is ih => simp [ih, testCopies]

/-- What the tests of the first `k` buckets come to. -/
theorem getElem?_foldl_testCopies {k : Nat} (inside : k ≤ base.length) (j : Nat) :
    ((List.range k).foldl (testCopies H hash base) (base ++ base))[j]? =
      if j < k then some ((bucketAt H base j).map (keepLow H hash (base.length * 2) j))
      else if base.length ≤ j ∧ j < k + base.length then
        some ((bucketAt H base (j - base.length)).map (keepHigh H hash (base.length * 2) (j - base.length)))
      else (base ++ base)[j]? := by
  induction k with
  | zero =>
      simp
  | succ k ih =>
      have before := ih (Nat.le_of_succ_le inside)
      have length := length_foldl_testCopies H hash base (List.range k) (base ++ base)
      have room : k + base.length < (base ++ base).length := by
        rw [List.length_append]
        omega
      have room' : k < (base ++ base).length := by omega
      rw [List.range_succ, List.foldl_append, List.foldl_cons, List.foldl_nil]
      generalize (List.range k).foldl (testCopies H hash base) (base ++ base) = l at before length
      simp only [testCopies, List.getElem?_set, List.length_set, length, room, room', if_true]
      by_cases high : k + base.length = j
      · subst high
        have notLow : ¬ k + base.length < k + 1 := by omega
        have here : base.length ≤ k + base.length ∧ k + base.length < k + 1 + base.length := by omega
        simp only [if_true, notLow, if_false, here, and_self, Nat.add_sub_cancel]
      · by_cases low : k = j
        · subst low
          simp only [high, if_false, if_true, Nat.lt_succ_self]
        · have sameLow : j < k + 1 ↔ j < k := by omega
          have sameHigh : base.length ≤ j ∧ j < k + 1 + base.length ↔ base.length ≤ j ∧ j < k + base.length := by
            omega
          simp only [high, low, if_false, sameLow, sameHigh]
          exact before

theorem foldl_testCopies : (List.range base.length).foldl (testCopies H hash base) (base ++ base) =
    double H hash base := by
  apply List.ext_getElem?
  intro j
  rw [getElem?_foldl_testCopies (le_refl _)]
  unfold double
  by_cases low : j < base.length
  · simp [low, bucketAt_eq low, List.getElem?_append]
  · have behind := Nat.le_of_not_lt low
    by_cases high : j < base.length + base.length
    · have within : j - base.length < base.length := by omega
      simp [low, behind, high, bucketAt_eq within]
    · simp [low, high]

/-- The items of a bucket in place are put where their hashes name. -/
theorem putAll_eq_rehash {xs : List (Nat × α)} {l : Layer w α}
    (named : ∀ p ∈ xs, p.1 = hash p.2 % l.length) : putAll H xs l = rehash H hash (xs.map Prod.snd) l := by
  induction xs generalizing l with
  | nil => rfl
  | cons p xs ih =>
      have later := fun q hq => named q (List.mem_cons_of_mem p hq)
      have same : putAt H p.1 p.2 l = put H hash l p.2 := by
        rw [named p List.mem_cons_self]
        rfl
      rw [List.map_cons]
      unfold putAll rehash
      rw [same]
      cases tried : put H hash l p.2 with
      | full => simp only [ih later]
      | present => simp only [ih later]
      | stored l' =>
          have size := length_put tried
          simp only [ih fun q hq => (later q hq).trans (congrArg _ size.symm)]

theorem destined_named {n i : Nat} (hi : i < other.length) (length : other.length = n)
    (agree : H.Agree other.cells) (placed : Placed H hash other) :
    ∀ p ∈ destined H hash n other i, p.1 = hash p.2 % (n * 2) := by
  intro p hp
  obtain ⟨x, hx, rfl⟩ := List.mem_map.mp hp
  rw [bucketAt_eq hi, List.mem_filter] at hx
  have occupied : H.free x = false := by
    rw [← agree x (cells_getElem hi hx.1)]
    simpa using hx.2
  have home := placed i hi x hx.1 occupied
  have two : hash x % (n * 2) = hash x % n + n * (hash x / n % 2) := Nat.mod_mul
  rw [length] at home
  rw [home] at two
  dsimp only
  split
  · exact Eq.symm ‹_›
  · rcases Nat.mod_two_eq_zero_or_one (hash x / n) with even | odd
    · rw [even] at two
      omega
    · rw [odd] at two
      omega

/-- The items of a layer in the order of a scan. -/
def scanned (H : Cells α) (l : Layer w α) : List α :=
  (List.range l.length).flatMap fun i => (bucketAt H l i).cells.filter fun x => !H.skip x

theorem scanned_eq (l : Layer w α) : scanned H l = (cells l).filter fun x => !H.skip x := by
  have buckets : (List.range l.length).map (bucketAt H l) = l := by
    apply List.ext_getElem
    · simp
    · intro i hi hi'
      simp [bucketAt_eq hi']
  rw [scanned, cells, List.filter_flatMap]
  conv_rhs => rw [← buckets, List.flatMap_map]

/-- With both layers of one length and the second in place, the loop rehashes
    the items of the second into the double of the first. -/
theorem mergeWith_eq (length : other.length = base.length) (agree : H.Agree other.cells)
    (placed : Placed H hash other) :
    mergeWith H hash base other = rehash H hash (scanned H other) (double H hash base) := by
  have inside : ∀ i ∈ List.range base.length, i < base.length := fun i hi => List.mem_range.mp hi
  have named : ∀ p ∈ (List.range base.length).flatMap (destined H hash base.length other),
      p.1 = hash p.2 % (double H hash base).length := by
    intro p hp
    obtain ⟨i, hi, hp⟩ := List.mem_flatMap.mp hp
    rw [length_double]
    exact destined_named (length ▸ inside i hi) length agree placed p hp
  have items : ((List.range base.length).flatMap (destined H hash base.length other)).map Prod.snd =
      scanned H other := by
    rw [List.map_flatMap, scanned, length]
    refine congrArg (fun f => List.flatMap f _) (funext fun i => ?_)
    rw [destined, List.map_map]
    exact List.map_id _
  rw [mergeWith, foldl_mergeRound List.nodup_range inside, foldl_testCopies, putAll_eq_rehash named, items]
  simp

end Layer

end Rounds

namespace Table

variable {H : Cells α}

/-- The spec of merging two tables of one size; compare `MergeSettled`. -/
structure PairSettled (H : Cells α) (c1 c2 : Table w α) (r : Bulk w α) : Prop where
  size : ∀ flag, (r.table.side flag).length = (c1.side flag).length * 2
  cells : ∀ c ∈ r.table.cells, c ∈ c1.cells ∨ c ∈ c2.cells ∨ c = H.zero
  placed : c1.Placed H → r.table.Placed H
  stored : H.Apart (c1.stored H + c2.stored H) → r.table.stored H + ↑r.left = c1.stored H + c2.stored H
  counted : H.Apart (c1.stored H + c2.stored H) → c1.Counted H → r.table.Counted H

theorem merge2_settled (law : H.Lawful) (hw : 0 < w) (times : Nat) (rand : Nat → Nat) {c1 c2 : Table w α}
    (ready : c1.Ready) (agree1 : H.Agree c1.cells) (agree2 : H.Agree c2.cells)
    (same : ∀ flag, (c2.side flag).length = (c1.side flag).length) (placed2 : c2.Placed H) (draws : Nat) :
    PairSettled H c1 c2 (merge2 H times rand c1 c2 draws) := by
  let items := fun flag => Layer.scanned H (c2.side flag)
  have scanned : ∀ flag, items flag = (Layer.cells (c2.side flag)).filter fun x => !H.skip x :=
    fun flag => Layer.scanned_eq _
  have stored : ∀ flag, (↑(items flag) : Multiset α) = H.occupied ↑(Layer.cells (c2.side flag)) := by
    intro flag
    rw [scanned flag, Cells.occupied, Multiset.filter_coe]
    refine congrArg _ (List.filter_congr fun x hx => ?_)
    rw [agree_side agree2 flag x hx]
    cases H.free x <;> rfl
  have origin : ∀ flag, ∀ x ∈ items flag, x ∈ c2.cells ∧ H.free x = false := by
    intro flag x hx
    rw [← Multiset.mem_coe, stored flag, Cells.mem_occupied] at hx
    exact ⟨(mem_cells_sides c2 flag).mpr (.inl hx.1), hx.2⟩
  have all : (↑(items true) : Multiset α) + ↑(items false) = c2.stored H := by
    rw [stored true, stored false, stored_sides c2 true]
    rfl
  have layers : ∀ flag, Layer.mergeWith H (H.hash flag) (c1.side flag) (c2.side flag) = _ := fun flag =>
    Layer.mergeWith_eq (same flag) (agree_side agree2 flag) (placed2 flag)
  have loop : merge2 H times rand c1 c2 draws = grown H times rand c1 items draws := by
    have first := layers true
    have second := layers false
    simp only [side] at first second
    simp only [merge2, grown, first, second, items, side]
  have settled := grown_settled law hw times rand ready agree1 (fun flag x hx => (origin flag x hx).2) draws
  rw [loop]
  refine ⟨settled.size, fun c hc => ?_, settled.placed, ?_, ?_⟩
  · rcases settled.cells c hc with hc | ⟨flag, hc⟩ | zero
    · exact .inl hc
    · exact .inr (.inl (origin flag c hc).1)
    · exact .inr (.inr zero)
  · rw [← all]
    exact settled.stored
  · rw [← all]
    exact settled.counted

/-- A table of these bucket counts in place, with the right count, on whose
    cells the two tests for a free cell agree. -/
structure Fit (H : Cells α) (l1 l2 : Nat) (c : Table w α) : Prop where
  len1 : c.len1 = l1
  len2 : c.len2 = l2
  placed : c.Placed H
  counted : c.Counted H
  agree : H.Agree c.cells

theorem Fit.ready {l1 l2 : Nat} {c : Table w α} (h : c.Fit H l1 l2) (p1 : 0 < l1) (p2 : 0 < l2) : c.Ready :=
  ready_of_len (p1.trans_eq h.len1.symm) (p2.trans_eq h.len2.symm)

theorem Fit.length {l1 l2 : Nat} {c : Table w α} (h : c.Fit H l1 l2) :
    ∀ flag, (c.side flag).length = if flag then l1 else l2 := by
  intro flag
  cases flag
  · exact h.len2
  · exact h.len1

/-- A new table into which items were inserted. -/
theorem fit_insertAll (law : H.Lawful) (hw : 0 < w) (times : Nat) (rand : Nat → Nat) {l1 l2 : Nat} (p1 : 0 < l1)
    (p2 : 0 < l2) {xs : List α} (occupied : ∀ x ∈ xs, H.free x = false) (apart : H.Apart ↑xs)
    (agree : H.Agree (H.zero :: xs)) (draws : Nat) :
    (insertAll H times rand xs (new H l1 l2 : Table w α) draws).table.Fit H l1 l2 := by
  have settled := insertAll_settled law hw times rand occupied (new_ready H p1 p2) draws
  have vacant : (new H l1 l2 : Table w α).stored H = 0 := stored_new law l1 l2
  refine ⟨settled.size.len1.trans (new_len1 l1 l2), settled.size.len2.trans (new_len2 l1 l2),
    settled.placed (placed_new law l1 l2), settled.counted ?_ (counted_new law l1 l2), fun c hc => ?_⟩
  · rwa [vacant, zero_add]
  · apply agree
    rcases settled.cells c hc with hc | hc
    · exact List.mem_cons.mpr (.inl (mem_new l1 l2 hc))
    · exact List.mem_cons_of_mem _ hc

section Fit

variable (law : H.Lawful) (skips : H.skip H.zero = true) (hw : 0 < w) (times : Nat) (rand : Nat → Nat)
  {c0 c1 c2 : Table w α}

include law skips hw

theorem merge2_fit {l1 l2 : Nat} (p1 : 0 < l1) (p2 : 0 < l2) (fit1 : c1.Fit H l1 l2) (fit2 : c2.Fit H l1 l2)
    (apart : H.Apart (c1.stored H + c2.stored H)) (draws : Nat) :
    let r := merge2 H times rand c1 c2 draws
    r.table.Fit H (l1 * 2) (l2 * 2) ∧ r.table.stored H + ↑r.left = c1.stored H + c2.stored H := by
  intro r
  have settled : PairSettled H c1 c2 r := merge2_settled law hw times rand (fit1.ready p1 p2) fit1.agree fit2.agree
    (fun flag => (fit2.length flag).trans (fit1.length flag).symm) fit2.placed draws
  have size := settled.size
  refine ⟨⟨?_, ?_, settled.placed fit1.placed, settled.counted apart fit1.counted, fun c hc => ?_⟩,
    settled.stored apart⟩
  · exact (size true).trans (congrArg (· * 2) fit1.len1)
  · exact (size false).trans (congrArg (· * 2) fit1.len2)
  · rcases settled.cells c hc with hc | hc | rfl
    · exact fit1.agree c hc
    · exact fit2.agree c hc
    · exact skips.trans law.zero_free.symm

theorem merge_fit {l1 l2 : Nat} (p1 : 0 < l1) (p2 : 0 < l2) (fit0 : c0.Fit H l1 l2)
    (fit1 : c1.Fit H (l1 / 2) (l2 / 2)) (fit2 : c2.Fit H (l1 / 2) (l2 / 2))
    (apart : H.Apart (c0.stored H + (c1.stored H + c2.stored H))) (draws : Nat) :
    let r := merge H times rand c0 c1 c2 draws
    r.table.Fit H (l1 * 2) (l2 * 2) ∧ r.table.stored H + ↑r.left = c0.stored H + (c1.stored H + c2.stored H) := by
  intro r
  have half : ∀ {c : Table w α}, c.Fit H (l1 / 2) (l2 / 2) →
      ∀ flag, (c.side flag).length = (c0.side flag).length / 2 := by
    intro c fit flag
    rw [fit.length flag, fit0.length flag]
    cases flag <;> rfl
  have settled : MergeSettled H c0 c1 c2 r := merge_settled law hw times rand (fit0.ready p1 p2)
    fit0.agree fit1.agree fit2.agree (half fit1) (half fit2) draws
  have size := settled.size
  refine ⟨⟨?_, ?_, settled.placed fit0.placed, settled.counted apart fit0.counted, fun c hc => ?_⟩,
    settled.stored apart⟩
  · exact (size true).trans (congrArg (· * 2) fit0.len1)
  · exact (size false).trans (congrArg (· * 2) fit0.len2)
  · rcases settled.cells c hc with hc | hc | hc | rfl
    · exact fit0.agree c hc
    · exact fit1.agree c hc
    · exact fit2.agree c hc
    · exact skips.trans law.zero_free.symm

/-- Merging the two small tables and their result into the large one stores what
    a merge of the three does. -/
theorem merge2_twice_fit {l1 l2 : Nat} (p1 : 0 < l1) (p2 : 0 < l2) (even1 : 2 ∣ l1) (even2 : 2 ∣ l2)
    (fit0 : c0.Fit H l1 l2) (fit1 : c1.Fit H (l1 / 2) (l2 / 2)) (fit2 : c2.Fit H (l1 / 2) (l2 / 2))
    (apart : H.Apart (c0.stored H + (c1.stored H + c2.stored H))) (draws : Nat) :
    let i := merge2 H times rand c1 c2 draws
    let r := merge2 H times rand c0 i.table i.draws
    r.table.Fit H (l1 * 2) (l2 * 2) ∧
      r.table.stored H + ↑(i.left ++ r.left) = c0.stored H + (c1.stored H + c2.stored H) := by
  intro i r
  have half1 : 0 < l1 / 2 := Nat.div_pos (Nat.le_of_dvd p1 even1) Nat.two_pos
  have half2 : 0 < l2 / 2 := Nat.div_pos (Nat.le_of_dvd p2 even2) Nat.two_pos
  obtain ⟨fit, inner⟩ := merge2_fit law skips hw times rand half1 half2 fit1 fit2
    (apart.mono (Multiset.le_add_left _ _)) draws
  rw [Nat.div_mul_cancel even1, Nat.div_mul_cancel even2] at fit
  have smaller : c0.stored H + i.table.stored H ≤ c0.stored H + (c1.stored H + c2.stored H) := by
    rw [← inner]
    exact add_le_add (le_refl _) (Multiset.le_add_right _ _)
  obtain ⟨fitted, outer⟩ := merge2_fit law skips hw times rand p1 p2 fit0 fit (apart.mono smaller) i.draws
  refine ⟨fitted, ?_⟩
  calc r.table.stored H + ↑(i.left ++ r.left) = (r.table.stored H + ↑r.left) + ↑i.left := by
        rw [← Multiset.coe_add]
        ac_rfl
    _ = c0.stored H + (i.table.stored H + ↑i.left) := by rw [outer, add_assoc]
    _ = _ := by rw [inner]

end Fit

end Table

end TwoLayer
