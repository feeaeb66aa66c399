import CuckooGraph.Mergehash1.Tables
import CuckooGraph.Table.Repeated

/-! # Insertions into one table

`test_mul` inserts keys into a table of `Cuckoo.h` as they come, whether they are
there or not, and counts the cells in use when the first insertion fails.
-/

namespace CuckooGraph

open TwoLayer

namespace KeyTable

/-- The keys in the cells. -/
def keys (t : KeyTable) : Finset Key := (t.cells.filter (· ≠ 0)).toFinset

/-- What `test_mul` counts, or nothing if no insertion fails. -/
def testMul (H : Cells Key) (rand : Nat → Nat) : List Key → KeyTable → Nat → Option Nat
  | [], _, _ => none
  | x :: xs, t, draws =>
      let r := t.insert H kicktimes rand draws x
      match r.left with
      | some _ => some (r.table.cells.countP (· ≠ 0))
      | none => testMul H rand xs r.table r.draws

variable {E : Env} {s1 s2 : Int} {t : KeyTable} {x : Key}

theorem keyCells_keyed (E : Env) (s1 s2 : Int) : (keyCells E s1 s2).Keyed where
  toLawful := keyCells_lawful E s1 s2
  symm x y := Bool.beq_comm
  hash x y same flag := by
    obtain rfl : x = y := by simpa [keyCells] using same
    rfl

theorem nodup_of_apart {s : Multiset Key} (apart : (keyCells E s1 s2).Apart s) : s.Nodup := by
  rw [Multiset.nodup_iff_le]
  intro a le
  have other := apart a a le
  simp [keyCells] at other

theorem free_test (E : Env) (s1 s2 : Int) :
    (fun c => !(keyCells E s1 s2).free c) = fun c : Key => decide (c ≠ 0) := by
  funext c
  by_cases zero : c = 0 <;> simp [keyCells, zero]

theorem mem_keys (E : Env) (s1 s2 : Int) {k : Key} : k ∈ keys t ↔ k ∈ t.stored (keyCells E s1 s2) := by
  rw [Table.mem_stored, keyCells_free]
  simp [keys]

/-- Each key is in one cell at most, and the count is right. -/
theorem once (u : t.Unrepeated (keyCells E s1 s2)) :
    (∀ k, k ≠ 0 → t.cells.count k ≤ 1) ∧ t.num = t.cells.countP (· ≠ 0) ∧ t.num = (keys t).card := by
  have nodup : (t.cells.filter (· ≠ 0)).Nodup := by
    have stored := nodup_of_apart u.apart
    rwa [← Table.coe_items, Multiset.coe_nodup, Table.items, free_test] at stored
  have count : t.num = t.cells.countP (· ≠ 0) := by
    rw [(Table.counted_iff t).mp u.counted, free_test]
  refine ⟨fun k known => ?_, count, ?_⟩
  · have filtered := List.count_filter (l := t.cells) (p := fun c => decide (c ≠ 0)) (by simpa using known)
    rw [← filtered]
    exact List.nodup_iff_count_le_one.mp nodup k
  · rw [count, keys, List.toFinset_card_of_nodup nodup, List.countP_eq_length_filter]

/-- What an insertion does to the keys. -/
theorem keys_insert {r : Outcome bup Key} (i : Table.Unrepeats (keyCells E s1 s2) t x r) :
    (r.left = none → keys r.table = insert x (keys t)) ∧
      ∀ y, r.left = some y → keys r.table = (insert x (keys t)).erase y ∧ y ∈ insert x (keys t) := by
  cases i.items with
  | inl found =>
      obtain ⟨⟨c, hc, same⟩, kept, none⟩ := found
      obtain rfl : x = c := by simpa [keyCells] using same
      rw [kept, none]
      exact ⟨fun _ => (Finset.insert_eq_of_mem ((mem_keys E s1 s2).mpr hc)).symm, by simp⟩
  | inr added =>
      obtain ⟨apart, stored⟩ := added
      have nodup := nodup_of_apart apart
      constructor
      · intro none
        ext k
        rw [none, Option.toList_none, Multiset.coe_nil, add_zero] at stored
        rw [mem_keys E s1 s2, stored, Finset.mem_insert, mem_keys E s1 s2, Multiset.mem_add, Multiset.mem_singleton, or_comm]
      · intro y left
        have all : y ::ₘ r.table.stored (keyCells E s1 s2) = x ::ₘ t.stored (keyCells E s1 s2) := by
          rw [left, Option.toList_some, Multiset.coe_singleton] at stored
          rw [← Multiset.singleton_add, ← Multiset.singleton_add, add_comm, stored, add_comm]
        have gone : y ∉ r.table.stored (keyCells E s1 s2) := by
          rw [← all] at nodup
          exact (Multiset.nodup_cons.mp nodup).1
        have members : ∀ k, k ∈ insert x (keys t) ↔ k = y ∨ k ∈ r.table.stored (keyCells E s1 s2) := by
          intro k
          rw [Finset.mem_insert, mem_keys E s1 s2, ← Multiset.mem_cons, ← all, Multiset.mem_cons]
        refine ⟨?_, (members y).mpr (.inl rfl)⟩
        ext k
        rw [mem_keys E s1 s2, Finset.mem_erase, members]
        by_cases same : k = y
        · simp [same, gone]
        · simp [same]

/-- At every point of a series of insertions no key is stored twice, and the next
    insertion adds its key and takes out at most what it says. -/
theorem insert_repeated (E : Env) {l1 l2 : Nat} (h1 : 1 ≤ l1) (h2 : 1 ≤ l2) (s1 s2 : Int) {xs : List Key}
    (known : ∀ x ∈ xs, x ≠ 0) {x : Key} (hx : x ≠ 0) :
    let b := Table.insertAll (keyCells E s1 s2) kicktimes E.rand xs (Table.new (keyCells E s1 s2) l1 l2) 0
    let r := b.table.insert (keyCells E s1 s2) kicktimes E.rand b.draws x
    (∀ k, k ≠ 0 → b.table.cells.count k ≤ 1) ∧ b.table.num = b.table.cells.countP (· ≠ 0) ∧
      (r.left = none → keys r.table = insert x (keys b.table)) ∧
      ∀ mykick, r.left = some mykick → keys r.table = (insert x (keys b.table)).erase mykick := by
  intro b r
  have keyed := keyCells_keyed E s1 s2
  have ready : (Table.new (keyCells E s1 s2) l1 l2 : KeyTable).Ready := Table.new_ready _ h1 h2
  obtain ⟨unrepeated, ready⟩ := (Table.unrepeated_new keyed.toLawful l1 l2).insertAll keyed (by decide) ready
    kicktimes E.rand 0 fun x hx => keyCells_free.mpr (known x hx)
  obtain ⟨single, count, -⟩ := once unrepeated
  obtain ⟨stays, leaves⟩ := keys_insert (unrepeated.insert keyed (by decide) ready kicktimes E.rand b.draws
    (keyCells_free.mpr hx))
  exact ⟨single, count, stays, fun mykick left => (leaves mykick left).1⟩

/-- Where all keys collide there is no room for a 17th key, and 9 is kicked out in the end. -/
theorem insert_repeated_full :
    let b := Table.insertAll (keyCells colliding 0 221) kicktimes colliding.rand
      [1, 2, 3, 4, 5, 6, 7, 8, 3, 9, 10, 11, 12, 13, 14, 15, 16, 9] (Table.new (keyCells colliding 0 221) 1 1) 0
    let r := b.table.insert (keyCells colliding 0 221) kicktimes colliding.rand b.draws 17
    r.left = some 9 ∧ keys r.table = (insert 17 (keys b.table)).erase 9 :=
  ⟨by decide +kernel, (insert_repeated colliding Nat.one_pos Nat.one_pos 0 221 (by decide)
    (by decide)).2.2.2 9 (by decide +kernel)⟩

/-- The cells counted are the different keys up to the first failure, but for the
    one which was kicked out. -/
theorem testMul_count {xs : List Key} (known : ∀ x ∈ xs, x ≠ 0) (ready : t.Ready)
    (u : t.Unrepeated (keyCells E s1 s2)) {draws s : Nat} (failed : testMul (keyCells E s1 s2) E.rand xs t draws = some s) :
    ∃ fed, fed <+: xs ∧ s + 1 = (keys t ∪ fed.toFinset).card := by
  induction xs generalizing t draws with
  | nil => simp [testMul] at failed
  | cons x xs ih =>
      have hx : (keyCells E s1 s2).free x = false := keyCells_free.mpr (known x List.mem_cons_self)
      have one := u.insert (keyCells_keyed E s1 s2) (by decide) ready kicktimes E.rand draws hx
      obtain ⟨stays, leaves⟩ := keys_insert one
      simp only [testMul] at failed
      cases left : (t.insert (keyCells E s1 s2) kicktimes E.rand draws x).left with
      | none =>
          rw [left] at failed
          obtain ⟨fed, part, count⟩ := ih (fun y hy => known y (List.mem_cons_of_mem x hy)) (one.size.ready ready)
            one.unrepeated failed
          refine ⟨x :: fed, List.cons_prefix_cons.mpr ⟨rfl, part⟩, ?_⟩
          rw [count, stays left, List.toFinset_cons, Finset.insert_union, Finset.union_insert]
      | some y =>
          rw [left] at failed
          obtain ⟨gone, member⟩ := leaves y left
          obtain ⟨-, count, total⟩ := once one.unrepeated
          refine ⟨[x], List.cons_prefix_cons.mpr ⟨rfl, List.nil_prefix⟩, ?_⟩
          have cells : s = (keys (t.insert (keyCells E s1 s2) kicktimes E.rand draws x).table).card := by
            rw [count] at total
            rw [← Option.some.inj failed]
            exact Int.ofNat_inj.mp total
          rw [cells, gone, Finset.card_erase_add_one member, List.toFinset_cons, List.toFinset_nil,
            Finset.union_insert, Finset.union_empty]

end KeyTable

end CuckooGraph
