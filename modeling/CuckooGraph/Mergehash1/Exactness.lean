import CuckooGraph.Mergehash1.Steps
import CuckooGraph.Table.Loop

/-! # Runs of `mergehash1`

From a smallest table with 4 buckets in its second layer on, `mergehash1` is a
set. With the sizes its callers use the third table has no bucket in its second
layer.
-/

namespace CuckooGraph

open TwoLayer

namespace Mergehash1

variable {E : Env} {h : Mergehash1} {s1 s2 : Int}

section Sizes

/-- The sizes of the smallest table. -/
def base (h : Mergehash1) : Nat × Nat := (h.ll1, h.ll2)

theorem base_insert (h : Mergehash1) (e : Key) : (h.insert E e).base = h.base := by
  simp only [insert]
  split
  · rfl
  · split
    · split <;> rfl
    · split
      · rfl
      · split <;> rfl

theorem base_del (h : Mergehash1) (e : Key) : (h.del E e).1.base = h.base := by
  simp only [del]
  split
  · split
    · rfl
    · split <;> rfl
  · split <;> rfl

theorem base_perform (h : Mergehash1) (op : Op) : (perform E h op).base = h.base := by
  cases op with
  | insert e => exact base_insert h e
  | del e => exact base_del h e
  | query e => rfl

theorem run_snoc (l1 l2 : Nat) (ops : List Op) (op : Op) :
    run E l1 l2 s1 s2 (ops ++ [op]) = perform E (run E l1 l2 s1 s2 ops) op := by
  simp only [run, List.foldl_append, List.foldl_cons, List.foldl_nil]

theorem base_run (E : Env) (l1 l2 : Nat) (s1 s2 : Int) (ops : List Op) : (run E l1 l2 s1 s2 ops).base = (l1, l2) := by
  induction ops using List.reverseRecOn with
  | nil => rfl
  | append_singleton ops op ih => rw [run_snoc, base_perform, ih]

end Sizes

section Inserted

theorem inserted_insert (ops : List Op) (x e : Key) :
    inserted (ops ++ [.insert x]) e = true ↔ x = e ∨ inserted ops e = true := by
  simp only [inserted, List.foldl_append, List.foldl_cons, List.foldl_nil]
  split <;> simp_all

theorem inserted_del (ops : List Op) (x e : Key) :
    inserted (ops ++ [.del x]) e = true ↔ x ≠ e ∧ inserted ops e = true := by
  simp only [inserted, List.foldl_append, List.foldl_cons, List.foldl_nil]
  split <;> simp_all

theorem inserted_query (ops : List Op) (x e : Key) : inserted (ops ++ [.query x]) e = inserted ops e := by
  simp only [inserted, List.foldl_append, List.foldl_cons, List.foldl_nil]

end Inserted

/-- The key of an insertion. -/
def Op.inserted? : Op → Option Key
  | .insert e => some e
  | _ => none

/-- No insertion makes a table with a layer of length 0, if `2 ^ j` is the length of
    the second layer of the first table made. -/
def Fits (E : Env) (j : Nat) (s1 s2 : Int) (ops : List Op) : Prop :=
  ∀ before e i, before ++ [.insert e] <+: ops →
    makes E (run E (2 ^ (j + 1)) (2 ^ j) s1 s2 before) e = some i → i ≤ j

/-- What is held is what was inserted. -/
theorem run_good (E : Env) (j : Nat) (s1 s2 : Int) (ops : List Op) (known : ∀ op ∈ ops, op.key ≠ 0)
    (fits : Fits E j s1 s2 ops) :
    Good E (run E (2 ^ (j + 1)) (2 ^ j) s1 s2 ops) ∧
      ∀ e, e ∈ held E (run E (2 ^ (j + 1)) (2 ^ j) s1 s2 ops) ↔ inserted ops e = true := by
  induction ops using List.reverseRecOn with
  | nil =>
      obtain ⟨good, vacant⟩ := good_new E (2 ^ (j + 1)) (2 ^ j) s1 s2
      refine ⟨good, fun e => ?_⟩
      rw [run, List.foldl_nil, vacant]
      simp [inserted]
  | append_singleton ops op ih =>
      have part : ops <+: ops ++ [op] := List.prefix_append ..
      obtain ⟨good, holds⟩ := ih (fun x hx => known x (List.mem_append_left _ hx)) fun before e i h =>
        fits before e i (h.trans part)
      have key := known op (by simp)
      have base := base_run E (2 ^ (j + 1)) (2 ^ j) s1 s2 ops
      rw [run_snoc]
      cases op with
      | insert x =>
          have key : x ≠ 0 := key
          obtain ⟨good', held'⟩ := good.insert key ⟨congrArg Prod.fst base, congrArg Prod.snd base⟩
            fun i => fits ops x i List.prefix_rfl
          refine ⟨good', fun e => ?_⟩
          rw [inserted_insert, ← holds, perform, held']
          split
          · rename_i present
            refine ⟨.inr, fun either => either.elim (fun same => same ▸ present) id⟩
          · rw [Multiset.mem_cons, eq_comm]
      | del x =>
          have key : x ≠ 0 := key
          obtain ⟨good', held', -⟩ := good.del key
          refine ⟨good', fun e => ?_⟩
          rw [inserted_del, ← holds, perform, held', good.nodup.mem_erase_iff, ne_comm]
      | query x =>
          have same : perform E (run E (2 ^ (j + 1)) (2 ^ j) s1 s2 ops) (.query x) =
              run E (2 ^ (j + 1)) (2 ^ j) s1 s2 ops := by
            rw [perform, good.findFault, Bool.or_false]
          rw [same]
          exact ⟨good, fun e => by rw [holds, inserted_query]⟩

theorem makes_lt {e : Key} {i : Nat} (made : makes E h e = some i) : i < 3 := by
  unfold makes at made
  split at made
  · cases made
  · exact ((loads_spec h.link).2.1 i made).1

/-- `mergehash1(2m, m)` is a set. -/
theorem mergehash1_set (E : Env) {m j : Nat} (power : m = 2 ^ j) (large : 4 ≤ m) (s1 s2 : Int) (ops : List Op)
    (known : ∀ op ∈ ops, op.key ≠ 0) :
    let h := run E (2 * m) m s1 s2 ops
    (∀ e, e ≠ 0 → h.query E e = inserted ops e) ∧
      (∀ e, e ≠ 0 → (h.del E e).2 = if h.query E e then 1 else 0) ∧
      (h.link.stored (h.cells E) + ↑h.blacklist).Nodup := by
  have two : 2 ≤ j := by
    by_contra small
    have le : 2 ^ j ≤ 2 ^ 1 := Nat.pow_le_pow_right (by decide) (by omega)
    omega
  have twice : 2 * m = 2 ^ (j + 1) := by rw [power]; ring
  rw [twice, power]
  obtain ⟨good, holds⟩ := run_good E j s1 s2 ops known fun before e i _ made => by
    have bound := makes_lt made
    omega
  refine ⟨fun e known => ?_, fun e known => ?_, good.nodup⟩
  · rw [Bool.eq_iff_iff, good.query_iff known, holds]
  · rw [(good.del known).2.2]
    simp only [good.query_iff known]

theorem mergehash1_set_small :
    (run colliding 8 4 0 221 [.insert 5, .insert 6, .del 5, .insert 5, .del 6]).query colliding 5 = true ∧
      (run colliding 8 4 0 221 [.insert 5, .insert 6, .del 5, .insert 5, .del 6]).query colliding 6 = false := by
  have set := (mergehash1_set colliding (m := 4) (j := 2) rfl (by decide) 0 221
    [.insert 5, .insert 6, .del 5, .insert 5, .del 6] (by decide)).1
  exact ⟨set 5 (by decide), set 6 (by decide)⟩

/-- With the sizes 4 and 2 no hash is reduced by 0 while no third table is made. -/
theorem mergehash1_modulus (E : Env) (s1 s2 : Int) (ops : List Op) (known : ∀ op ∈ ops, op.key ≠ 0)
    (two : ∀ before e, before ++ [.insert e] <+: ops → makes E (run E 4 2 s1 s2 before) e ≠ some 2) :
    (run E 4 2 s1 s2 ops).fault = false := by
  refine (run_good E 1 s1 s2 ops known fun before e i part made => ?_).1.fault
  have bound := makes_lt made
  have other : i ≠ 2 := by
    rintro rfl
    exact two before e part made
  omega

/-- Keys which fill two tables evenly. -/
def spread : Env := ⟨fun k _ => k.toNat, fun _ => 0⟩

/-- 66 keys in two tables, some of which come and go; others are looked for. -/
def twoTables : List Op :=
  (List.range 66).map (fun n => .insert (n + 1 : Int)) ++ (List.range 8).map (fun n => .del (8 * n + 1 : Int)) ++
    (List.range 8).map (fun n => .insert (8 * n + 1 : Int)) ++ [.query 68, .query 9, .del 66, .del 67]

theorem mergehash1_modulus_two :
    (run spread 4 2 0 221 twoTables).link.toList.map Table.len1 = [4, 2] ∧
      (run spread 4 2 0 221 twoTables).fault = false := by
  have along : Loop.Along (perform spread) (fun h op => ∀ e ∈ op.inserted?, makes spread h e ≠ some 2)
      (new 4 2 0 221) twoTables := by decide +kernel
  refine ⟨by decide +kernel, mergehash1_modulus spread 0 221 twoTables (by decide) fun before e part => ?_⟩
  obtain ⟨after, split⟩ := part
  rw [← split, List.append_assoc] at along
  exact along.here e rfl

/-- The 67th key makes a third table, whose second layer is empty. The next query
    reduces a hash by its length. -/
theorem third_table_faults :
    (run spread 4 2 0 221 ((List.range 67).map (fun n => .insert (n + 1 : Int)) ++ [.query 68])).fault = true := by
  decide +kernel

end Mergehash1

end CuckooGraph
