import CuckooGraph.WindBell.Delete
import CuckooGraph.WindBell.Neighbors

/-! # Enumeration after insertions

After insertions the successors and predecessors of an id are listed once each, as
long as every insertion finds the counters below `MAXNUM`. In a matrix of length 1
the insertion after 50000000 different edges finds no cell.
-/

namespace CuckooGraph

open TwoLayer Linked

namespace WindBell

namespace Chandelier

/-- The ids written from `U` on are those which are asked for, each once, and
    nothing else is written. -/
def Writes (buf : Buffer) (U : Nat) (r : Buffer × Nat) (wanted : Key → Prop) : Prop :=
  (r.1.slice U r.2).Nodup ∧ (∀ k, k ∈ r.1.slice U r.2 ↔ wanted k) ∧ ∀ i, i < U ∨ U + r.2 ≤ i → r.1 i = buf i

/-- All enumerations for `v` are those of some edges. -/
def Enumerates (E : Env) (c : Chandelier Unit) (es : List Edge) (v : Key) (buf : Buffer) (U : Nat) : Prop :=
  ∃ succ pred, c.querySuccessor E v buf U = some succ ∧ Writes buf U succ (fun d => ⟨v, d⟩ ∈ es) ∧
    c.queryPrecursor E v buf U = some pred ∧ Writes buf U pred (fun x => ⟨x, v⟩ ∈ es) ∧
    c.getNeighbors E v = some ((succ.1.slice U succ.2).map (·, 1)) ∧ c.querySuccess E v = some succ.2

/-- Every call finds the counters below the bound. -/
def Roomy (E : Env) (len : Nat) (calls : List Call) : Prop :=
  ∀ before x, before ++ [x] <+: calls → (run E len (inserts before)).Low

variable {E : Env} {c : Chandelier Unit} {lists : Place → List Addr} {es : List Edge}

theorem writes_write {ids : List Key} {wanted : Key → Prop} (once : ids.Nodup) (exactly : ∀ k, k ∈ ids ↔ wanted k)
    (buf : Buffer) (U : Nat) : Writes buf U (buf.write U ids) wanted := by
  obtain ⟨count, slice, kept⟩ := Buffer.write_spec buf U ids
  simp only [Writes, count, slice]
  exact ⟨once, exactly, kept⟩

theorem Sound.enumerates (s : c.Sound E lists) (positive : 0 < c.len) (holds : ∀ e, c.Holds lists e ↔ e ∈ es)
    (v : Key) (buf : Buffer) (U : Nat) : Enumerates E c es v buf U := by
  obtain ⟨succ, listed, once, members⟩ := s.successors positive v
  obtain ⟨pred, before, distinct, sources⟩ := s.queryPrecursor positive v
  obtain ⟨count, slice, -⟩ := Buffer.write_spec buf U succ
  refine ⟨buf.write U succ, buf.write U pred, querySuccessor_eq listed buf U, ?_, before buf U, ?_, ?_, ?_⟩
  · exact writes_write once (fun d => (members d).trans (holds _)) buf U
  · exact writes_write distinct (fun x => (sources x).trans (holds _)) buf U
  · rw [count, slice, getNeighbors, listed, Option.map_some]
  · rw [count, querySuccess, listed, Option.map_some]

theorem inserts_snoc (calls : List Call) (x : Call) :
    inserts (calls ++ [x]) = inserts calls ++ [.insert x.1 x.2.1 x.2.2] := by
  rw [inserts, List.map_append]
  rfl

/-- A matrix holds the edges inserted. -/
theorem inserts_sound (len : Nat) (calls : List Call) (roomy : Roomy E len calls) :
    ∃ lists, (run E len (inserts calls)).Sound E lists ∧
      ∀ e, (run E len (inserts calls)).Holds lists e ↔ e ∈ calls.map Prod.fst := by
  induction calls using List.reverseRecOn with
  | nil => exact ⟨_, sound_cleared len, fun e => by simp [Holds, Found, inserts]⟩
  | append_singleton calls x ih =>
      obtain ⟨lists, sound, holds⟩ := ih fun before y part => roomy before y (part.trans (List.prefix_append ..))
      obtain ⟨lists', sound', holds'⟩ := sound.insert (roomy calls x List.prefix_rfl) x.1 x.2.1 x.2.2
      rw [inserts_snoc, run_snoc]
      refine ⟨lists', sound', fun e => (holds' e).trans ?_⟩
      rw [holds, List.map_append, List.mem_append, or_comm, List.map_singleton, List.mem_singleton]

/-- Up to `MAXNUM` calls find the counters below it. -/
theorem roomy_few (len : Nat) {calls : List Call} (few : calls.length ≤ 50000000) : Roomy E len calls := by
  intro before x part
  have shorter := part.length_le
  rw [List.length_append, List.length_singleton] at shorter
  refine run_low len (inserts before) ?_ (outer_inserts len before) _ List.prefix_rfl
  rw [inserts, List.length_map]
  omega

/-- Every enumeration lists what was inserted, once. -/
theorem enumeration_exact (E : Env) {len : Nat} (size : 0 < len ∧ len ≤ maxTcm) (calls : List Call)
    (roomy : Roomy E len calls) (v : Key) (buf : Buffer) (U : Nat) :
    ∃ c, built E len (inserts calls) = some c ∧ Enumerates E c (calls.map Prod.fst) v buf U := by
  obtain ⟨lists, sound, holds⟩ := inserts_sound len calls roomy
  have here : 0 < (run E len (inserts calls)).len := by
    rw [(size_run E len (inserts calls)).1]
    exact size.1
  exact ⟨_, built_inside E size.2 _, sound.enumerates here holds v buf U⟩

theorem enumeration_exact_twice : ∃ c,
    built colliding 2 (inserts [(⟨1, 2⟩, none, none), (⟨1, 3⟩, none, none), (⟨1, 2⟩, none, none)]) = some c ∧
      Enumerates colliding c [⟨1, 2⟩, ⟨1, 3⟩, ⟨1, 2⟩] 1 (fun _ => 0) 5 :=
  enumeration_exact colliding (by decide) [(⟨1, 2⟩, none, none), (⟨1, 3⟩, none, none), (⟨1, 2⟩, none, none)]
    (roomy_few 2 (by decide)) 1 (fun _ => 0) 5

section Full

/-- The edges from 1 to 1, 2 and so on up to `n`. -/
def star (n : Nat) : List Call := (List.range n).map fun i : Nat => (⟨1, (i : Int) + 1⟩, none, none)

theorem star_succ (n : Nat) : star (n + 1) = star n ++ [(⟨1, (n : Int) + 1⟩, none, none)] := by
  rw [star, List.range_succ, List.map_append]
  rfl

theorem length_star (n : Nat) : (star n).length = n := by
  rw [star, List.length_map, List.length_range]

theorem nodup_star (n : Nat) : ((star n).map Prod.fst).Nodup := by
  rw [star, List.map_map]
  refine List.nodup_range.map fun i j same => ?_
  simpa using same

theorem star_new (n : Nat) : ⟨1, (n : Int) + 1⟩ ∉ (star n).map Prod.fst := by
  simp only [star, List.map_map, List.mem_map, List.mem_range, Function.comp_apply, Edge.mk.injEq]
  rintro ⟨i, less, -, same⟩
  exact less.ne (Int.ofNat_inj.mp (add_right_cancel same))

theorem cells_one (e : Edge) : cells E 1 e = [(0, 0), (0, 0), (0, 0), (0, 0)] := by
  simp [cells, Nat.mod_one]

/-- In a matrix of length 1 all nodes are in one list. -/
theorem Sound.full (s : c.Sound E lists) (len : c.len = 1) (nodup : es.Nodup)
    (holds : ∀ e, c.Holds lists e ↔ e ∈ es) : (es.length : Int) ≤ c.counter (0, 0) := by
  rw [s.consistent.count, Int.ofNat_le]
  have inside : es ⊆ (lists (0, 0)).filterMap fun a => (item c.heap a).map Prod.fst := by
    intro e he
    obtain ⟨p, a, ha, w, has⟩ := (holds e).mpr he
    have placed := s.filed.placed p a e w ha has
    rw [len, cells_one] at placed
    obtain rfl : p = (0, 0) := by simpa using placed
    exact List.mem_filterMap.mpr ⟨a, ha, by rw [has, Option.map_some]⟩
  exact (nodup.length_le_of_subset inside).trans (List.length_filterMap_le _ _)

/-- With full cells a search does not know where to begin, and an insertion fails. -/
theorem seek_full (len : c.len = 1) (full : maxNum ≤ c.counter (0, 0)) (e : Edge) : c.seek E e = none := by
  have nothing : minIndex (c.cnt E e) = none := by
    have stays : ¬ c.counter (0, 0) < maxNum := not_lt.mpr full
    rw [cnt, len, cells_one]
    simp [minIndex, stays]
  rw [seek, nothing]

/-- The edge after `MAXNUM` others is not listed. -/
theorem star_misses {n : Nat} (many : n = 50000000) :
    ¬ Enumerates colliding (run colliding 1 (inserts (star (n + 1)))) ((star (n + 1)).map Prod.fst) 1
      (fun _ => 0) 0 := by
  obtain ⟨lists, sound, holds⟩ := inserts_sound (E := colliding) 1 (star n)
    (roomy_few 1 ((length_star n).trans many).le)
  have len := (size_run colliding 1 (inserts (star n))).1
  have full := sound.full len (nodup_star n) holds
  rw [List.length_map, length_star] at full
  have bound : maxNum = (n : Int) := by rw [many]; rfl
  rw [← bound] at full
  obtain ⟨made, -, items⟩ := sound.alloc ⟨1, (n : Int) + 1, (), none, none⟩
  have stuck : run colliding 1 (inserts (star (n + 1))) = crash { run colliding 1 (inserts (star n)) with
      heap := ((run colliding 1 (inserts (star n))).heap.alloc ⟨1, (n : Int) + 1, (), none, none⟩).1 } := by
    rw [star_succ, inserts_snoc, run_snoc]
    simp only [perform, Chandelier.insert]
    rw [seek_full]
    · exact len
    · exact full
  obtain ⟨ids, listed, -, members⟩ := made.querySuccessor (Nat.lt_of_lt_of_eq Nat.one_pos len.symm) 1
  rintro ⟨succ, -, found, ⟨-, wanted, -⟩, -⟩
  rw [stuck] at found
  obtain rfl : succ = Buffer.write (fun _ => 0) 0 ids := Option.some.inj (found.symm.trans (listed _ _))
  obtain ⟨count, slice, -⟩ := Buffer.write_spec (fun _ => 0) 0 ids
  rw [count, slice] at wanted
  have here : (n : Int) + 1 ∈ ids := by
    rw [wanted, star_succ, List.map_append]
    exact List.mem_append_right _ (List.mem_singleton_self _)
  obtain ⟨a, ha, has⟩ := holds_iff.mp ((members _).mp here)
  rw [items a ha] at has
  exact star_new n ((holds _).mp (holds_iff.mpr ⟨a, ha, has⟩))

/-- After 50000000 edges from 1 in a matrix of length 1, another is not inserted. Of length
    7001 there is no matrix. -/
theorem enumeration_misses :
    (¬ ∃ c, built colliding 1 (inserts (star 50000001)) = some c ∧
      Enumerates colliding c ((star 50000001).map Prod.fst) 1 (fun _ => 0) 0) ∧
    ¬ ∃ c, built colliding 7001 (inserts []) = some c ∧ Enumerates colliding c [] 1 (fun _ => 0) 0 := by
  constructor
  · rintro ⟨c, done, enumerates⟩
    obtain rfl := Option.some.inj ((built_inside colliding (by decide) _).symm.trans done)
    exact star_misses rfl enumerates
  · rintro ⟨c, done, -⟩
    rw [built_outside colliding (by decide)] at done
    cases done

end Full

end Chandelier

end WindBell

end CuckooGraph
