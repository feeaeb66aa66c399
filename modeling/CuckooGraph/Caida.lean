import CuckooGraph.EdgeLines
import CuckooGraph.Numbering
import CuckooGraph.Unweighted.Exactness

/-! # The CAIDA trace

The trace is a file of binary records, which begin with the source and the destination as
words of 4 bytes. `read_caida_data` gives them new ids, from 1 on in the order of first occurrence.
-/

namespace CuckooGraph

open Numbering

namespace Caida

section Code

/-- `*(int*)p`, the lowest byte first. -/
def word (p : List Byte) : Key :=
  (BitVec.ofNat 32 ((p.take 4).foldr (fun b n => b.toNat + 256 * n) 0)).toInt

/-- `load_data13_CAIDA`: records of 21 bytes, `length` of them or as many as there are. -/
def loadData13 : Nat → List Byte → List Edge
  | 0, _ => []
  | length + 1, input =>
      if input.length < 21 then [] else ⟨word input, word (input.drop 4)⟩ :: loadData13 length (input.drop 21)

/-- `mp` and `node_num`. -/
structure Register where
  mp : Key → Option Key
  node_num : Nat

/-- `if (!mp.count(v))`, and what follows it. -/
def Register.enter (r : Register) (v : Key) : Register :=
  match r.mp v with
  | none => ⟨Function.update r.mp v (some ((r.node_num + 1 : Nat) : Key)), r.node_num + 1⟩
  | some _ => r

/-- The first loop. -/
def register (edges : List Edge) : Register :=
  edges.foldl (fun r e => (r.enter e.src).enter e.dst) ⟨fun _ => none, 0⟩

/-- The second loop. `mp[v]` of a key which is not there is 0. -/
def rename (r : Register) (edges : List Edge) : List Edge :=
  edges.map fun e => ⟨(r.mp e.src).getD 0, (r.mp e.dst).getD 0⟩

/-- `length` is `MAXNUM`, so that `node_num` does not overflow. -/
def readCaidaData (input : List Byte) : List Edge :=
  let edges := loadData13 50000000 input
  rename (register edges) edges

end Code

/-- The ends of the edges in the order of the trace. -/
def ends (edges : List Edge) : List Key := edges.flatMap fun e => [e.src, e.dst]

/-- The register of some names. -/
def named (names : List Key) : Register :=
  ⟨fun v => if v ∈ names then some (number names v : Key) else none, names.length⟩

theorem enter_named (names : List Key) (v : Key) : (named names).enter v = named (enter names v) := by
  by_cases known : v ∈ names
  · simp only [Register.enter, named, if_pos known, enter]
  · have length : (enter names v).length = names.length + 1 := by
      rw [enter, if_neg known, List.length_append, List.length_singleton]
    have mp : Function.update (named names).mp v (some ((names.length + 1 : Nat) : Key)) = (named (enter names v)).mp := by
      funext u
      by_cases same : u = v
      · subst same
        rw [Function.update_self]
        simp only [named, if_pos mem_enter_self, number_new known, length]
      · rw [Function.update_of_ne same]
        by_cases old : u ∈ names
        · simp only [named, if_pos old, if_pos (mem_enter_of_mem old), number_kept (prefix_enter names v) old]
        · have new : u ∉ enter names v := fun here => (mem_enter.mp here).elim old same
          simp only [named, if_neg old, if_neg new]
    have none : (named names).mp v = none := if_neg known
    simp only [Register.enter, none]
    rw [show (named names).node_num = names.length from rfl, mp, ← length]
    rfl

/-- The first loop enters the ends of the edges. -/
theorem register_eq (edges : List Edge) : register edges = named (firsts (ends edges)) := by
  have run : ∀ names, edges.foldl (fun r e => (r.enter e.src).enter e.dst) (named names) =
      named ((ends edges).foldl enter names) := by
    induction edges with
    | nil => exact fun names => rfl
    | cons e edges ih =>
        intro names
        rw [List.foldl_cons, enter_named, enter_named, ih]
        rfl
  exact run []

theorem length_loadData13 (length : Nat) (input : List Byte) :
    (loadData13 length input).length = min length (input.length / 21) := by
  induction length generalizing input with
  | zero => simp [loadData13]
  | succ length ih =>
      rw [loadData13]
      split
      · rename_i short
        rw [List.length_nil, Nat.div_eq_of_lt short, Nat.min_zero]
      · rw [List.length_cons, ih, List.length_drop]
        omega

theorem mem_ends {edges : List Edge} {e : Edge} (he : e ∈ edges) : e.src ∈ ends edges ∧ e.dst ∈ ends edges := by
  simp only [ends, List.mem_flatMap]
  exact ⟨⟨e, he, by simp⟩, ⟨e, he, by simp⟩⟩

/-- An id of the trace, after it has been given a new one. -/
def name (edges : List Edge) (v : Key) : Key := (number (firsts (ends edges)) v : Nat)

theorem rename_eq (edges : List Edge) :
    rename (register edges) edges = edges.map fun e => ⟨name edges e.src, name edges e.dst⟩ := by
  rw [register_eq, rename]
  refine List.map_congr_left fun e he => ?_
  obtain ⟨src, dst⟩ := mem_ends he
  simp only [named, if_pos (mem_firsts.mpr src), if_pos (mem_firsts.mpr dst), Option.getD_some, name]

theorem name_inj {edges : List Edge} {u v : Key} (hu : u ∈ ends edges) (hv : v ∈ ends edges)
    (same : name edges u = name edges v) : u = v :=
  (number_bijOn (nodup_firsts (ends edges))).injOn (mem_firsts.mpr hu) (mem_firsts.mpr hv) (Int.ofNat_inj.mp same)

theorem name_ne_zero (edges : List Edge) (v : Key) : name edges v ≠ 0 := Int.natCast_ne_zero.mpr (Nat.succ_ne_zero _)

/-- Each record comes out under new ids, which are 1, 2 and so on in the order of first
    occurrence. A graph into which they are inserted has the edges of the trace and no others. -/
theorem readCaidaData_exact (E : Env) (s1 s2 : Int) (input : List Byte) :
    let edges := loadData13 50000000 input
    let items := readCaidaData input
    let s := insertEdges E (Memory.initial, Holemerge.fresh bl1 bl2 s1 s2) items
    edges.length = min 50000000 (input.length / 21) ∧
      items = edges.map (fun e => ⟨name edges e.src, name edges e.dst⟩) ∧
      (∀ u ∈ ends edges, 1 ≤ name edges u ∧ name edges u ≤ (ends edges).toFinset.card) ∧
      (∀ u ∈ ends edges, ∀ v ∈ ends edges, (ends edges).idxOf u < (ends edges).idxOf v → name edges u < name edges v) ∧
      ∀ u ∈ ends edges, ∀ v ∈ ends edges, (s.2.query E s.1 ⟨name edges u, name edges v⟩ ≠ 0 ↔ ⟨u, v⟩ ∈ edges) := by
  intro edges items s
  have renamed : items = edges.map fun e => ⟨name edges e.src, name edges e.dst⟩ := rename_eq edges
  refine ⟨length_loadData13 50000000 input, renamed, fun u hu => ?_, fun u hu v hv first => ?_, fun u hu v hv => ?_⟩
  · obtain ⟨low, high⟩ := (number_bijOn (nodup_firsts (ends edges))).mapsTo (mem_firsts.mpr hu)
    rw [length_firsts] at high
    exact ⟨Int.ofNat_le.mpr low, Int.ofNat_le.mpr high⟩
  · exact Int.ofNat_lt.mpr (number_lt hu hv first)
  · have known : ∀ e ∈ items, e.src ≠ 0 ∧ e.dst ≠ 0 := by
      intro e he
      rw [renamed] at he
      obtain ⟨e', -, rfl⟩ := List.mem_map.mp he
      exact ⟨name_ne_zero edges _, name_ne_zero edges _⟩
    refine ((insertEdges_fresh E default_sizes s1 s2 known).2 _ (name_ne_zero edges u) (name_ne_zero edges v)).trans ?_
    rw [renamed, List.mem_map]
    constructor
    · rintro ⟨e, he, same⟩
      obtain ⟨src, dst⟩ := Edge.mk.inj same
      rw [← name_inj (mem_ends he).1 hu src, ← name_inj (mem_ends he).2 hv dst]
      exact he
    · exact fun here => ⟨⟨u, v⟩, here, rfl⟩

end Caida

end CuckooGraph
