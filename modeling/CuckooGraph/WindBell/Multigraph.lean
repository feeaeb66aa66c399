import CuckooGraph.Refinement
import CuckooGraph.Triangles
import CuckooGraph.WindBell.Enumeration
import CuckooGraph.WindBell.Weights

/-! # A weighted Wind-Bell matrix is a multiset of edges

An insertion adds an edge once more, and `query_edge` tells how often it has been inserted. The
other calls of the weighted build answer as for the set of these edges.
-/

namespace CuckooGraph

open TwoLayer Linked

namespace WindBell

namespace Chandelier

section Calls

variable (E : Env) (c : Chandelier UInt32) (src : Key)

/-- `query_triangles` in the weighted build, where an edge is one of a weight which is not 0. -/
def queryTrianglesWeight (successor precursor : Buffer) : Option Nat :=
  trianglesBetween (c.querySuccessor E) (c.queryPrecursor E) (fun e => (c.queryWeight E e).map (· != 0)) src
    successor precursor

def queryTriangleNewWeight (successor precursor : Buffer) : Option Nat :=
  trianglesForward (c.querySuccessor E) (fun e => (c.queryWeight E e).map (· != 0)) src successor precursor

end Calls

namespace Multigraph

/-- A call on a weighted matrix. A new node may come with stale pointers. -/
inductive Action
  | insert (e : Edge) (next prev : Option Addr)
  | queryEdge (e : Edge)
  | querySuccess (src : Key)
  | querySuccessor (src : Key) (buf : Buffer) (U : Nat)
  | queryPrecursor (dst : Key) (buf : Buffer) (U : Nat)
  | getNeighbors (src : Key)
  | queryTriangles (src : Key) (b1 b2 : Buffer)
  | queryTriangleNew (src : Key) (b1 b2 : Buffer)

inductive Answer
  | inserted
  | weight (w : UInt32)
  | counted (n : Nat)
  | written (r : Buffer × Nat)
  | neighbors (v : List (Key × Nat))

def Action.perform (E : Env) : Action → Chandelier UInt32 → Option (Chandelier UInt32 × Answer)
  | .insert e next prev, c => some (c.insertWeight E e next prev, .inserted)
  | .queryEdge e, c => (c.queryWeight E e).map fun w => (c, .weight w)
  | .querySuccess src, c => (c.querySuccess E src).map fun n => (c, .counted n)
  | .querySuccessor src buf U, c => (c.querySuccessor E src buf U).map fun r => (c, .written r)
  | .queryPrecursor dst buf U, c => (c.queryPrecursor E dst buf U).map fun r => (c, .written r)
  | .getNeighbors src, c => (c.getNeighbors E src).map fun v => (c, .neighbors v)
  | .queryTriangles src b1 b2, c => (c.queryTrianglesWeight E src b1 b2).map fun n => (c, .counted n)
  | .queryTriangleNew src b1 b2, c => (c.queryTriangleNewWeight E src b1 b2).map fun n => (c, .counted n)

/-- What a weighted matrix is for. -/
def multigraph : Calls.Spec (Multiset Edge) Action Answer where
  effect
    | .insert e _ _, S => e ::ₘ S
    | _, S => S
  answers
    | _, .insert _ _ _, .inserted => True
    | S, .queryEdge e, .weight w => w.toNat = S.count e
    | S, .querySuccess src, .counted n => n = (S.toFinset.filter fun e => e.src = src).card
    | S, .querySuccessor src buf U, .written r => Writes buf U r fun d => ⟨src, d⟩ ∈ S
    | S, .queryPrecursor dst buf U, .written r => Writes buf U r fun x => ⟨x, dst⟩ ∈ S
    | S, .getNeighbors src, .neighbors v =>
        (v.map Prod.fst).Nodup ∧ (∀ d, d ∈ v.map Prod.fst ↔ ⟨src, d⟩ ∈ S) ∧ ∀ n ∈ v, n.2 = 1
    | S, .queryTriangles src _ _, .counted n => n = triangles S.toList src
    | S, .queryTriangleNew src _ _, .counted n => n = triangles S.toList src
    | _, _, _ => False

/-- The cells which are searched are found, and no weight overflows. -/
def Action.Clean : Action → Chandelier UInt32 → Prop
  | .insert _ _ _, c => c.Low ∧ c.heap.objects.length + 1 < 2 ^ 32
  | .queryEdge _, c => c.Low
  | .queryTriangles _ _ _, c => c.Low
  | .queryTriangleNew _ _ _, c => c.Low
  | _, _ => True

/-- A matrix which stands for a multiset of edges. Each insertion has made a node, if only for the caller. -/
structure Represents (E : Env) (c : Chandelier UInt32) (S : Multiset Edge) : Prop where
  weighs : ∃ calls lists, Weighs E calls c lists ∧ (↑(calls.map Prod.fst) : Multiset Edge) = S ∧
    c.heap.objects.length = calls.length ∧ ∀ e p a, c.Found lists e p a → e ∈ S
  positive : 0 < c.len

variable {E : Env} {c : Chandelier UInt32} {S : Multiset Edge}

theorem represents_cleared {len : Nat} (positive : 0 < len) : Represents E (cleared len) 0 where
  weighs := ⟨[], fun _ => [], weighs_cleared len, rfl, rfl, fun _ _ _ here => absurd here.1 List.not_mem_nil⟩
  positive := positive

namespace Represents

variable (rep : Represents E c S)
include rep

theorem insert (low : c.Low) (short : c.heap.objects.length + 1 < 2 ^ 32) (e : Edge) (next prev : Option Addr) :
    Represents E (c.insertWeight E e next prev) (e ::ₘ S) := by
  obtain ⟨calls, lists, weighs, same, length, found⟩ := rep.weighs
  rw [length] at short
  obtain ⟨lists', weighs', grown⟩ := weighs.step low (e, next, prev) short
  have size := size_insertWeight E c e next prev
  refine ⟨⟨calls ++ [(e, next, prev)], lists', weighs', ?_, ?_, fun e' p a here => ?_⟩, ?_⟩
  · rw [List.map_append, ← same]
    exact Multiset.coe_eq_coe.mpr (List.perm_append_singleton _ _)
  · rw [List.length_append, List.length_singleton, ← length]
    exact congrArg Prod.snd size
  · obtain ⟨ha, w, has⟩ := here
    rw [Multiset.mem_cons]
    refine (grown a e' w ⟨p, ha⟩ has).imp_right ?_
    rintro ⟨b, w, ⟨q, hb⟩, has⟩
    exact found e' q b ⟨hb, w, has⟩
  · exact rep.positive.trans_eq (congrArg Prod.fst size).symm

/-- The weights are numbers of insertions, and the nodes those of the edges inserted. -/
theorem sound : ∃ lists, c.Sound E lists ∧ (∀ e, (∃ p a, c.Found lists e p a) ↔ e ∈ S.toList) ∧
    (c.Low → ∀ e, ∃ w, c.queryWeight E e = some w ∧ w.toNat = S.count e) := by
  obtain ⟨calls, lists, weighs, rfl, -, found⟩ := rep.weighs
  refine ⟨lists, weighs.sound, fun e => ⟨?_, fun member => ?_⟩, fun low e => ?_⟩
  · rintro ⟨p, a, here⟩
    exact Multiset.mem_toList.mpr (found e p a here)
  · have inserted : 0 < times calls e := List.count_pos_iff.mpr (Multiset.mem_coe.mp (Multiset.mem_toList.mp member))
    obtain ⟨a, w, ⟨p, ha⟩, has⟩ := weighs.held e inserted
    exact ⟨p, a, ha, w, has⟩
  · rw [Multiset.coe_count]
    exact weighs.query low e

/-- What is listed after and before an id. -/
theorem enumerates (v : Key) : ∃ succ pred : List Key, Lists S.toFinset v succ ∧ c.successors E v = some succ ∧
    (pred.Nodup ∧ ∀ x, x ∈ pred ↔ ⟨x, v⟩ ∈ S) ∧ ∀ buf U, c.queryPrecursor E v buf U = some (buf.write U pred) := by
  obtain ⟨lists, sound, holds, -⟩ := rep.sound
  obtain ⟨succ, listed, once, members⟩ := sound.successors rep.positive v
  obtain ⟨pred, before, distinct, sources⟩ := sound.queryPrecursor rep.positive v
  refine ⟨succ, pred, ⟨once, fun d => ?_⟩, listed, ⟨distinct, fun x => ?_⟩, before⟩
  · rw [members d, holds, Multiset.mem_toList, Multiset.mem_toFinset]
  · rw [sources x, holds, Multiset.mem_toList]

theorem triangles (low : c.Low) (src : Key) (b1 b2 : Buffer) :
    c.queryTrianglesWeight E src b1 b2 = some (CuckooGraph.triangles S.toList src) ∧
      c.queryTriangleNewWeight E src b1 b2 = some (CuckooGraph.triangles S.toList src) := by
  obtain ⟨lists, sound, holds, weight⟩ := rep.sound
  have asked : ∀ e, (c.queryWeight E e).map (· != 0) = some (decide (e ∈ S.toList)) := fun e => by
    obtain ⟨w, found, count⟩ := weight low e
    rw [found, Option.map_some, Option.some_inj, Bool.eq_iff_iff, bne_iff_ne, decide_eq_true_iff, Multiset.mem_toList,
      ← Multiset.count_pos, ← count, Nat.pos_iff_ne_zero, ne_eq, ne_eq, ← UInt32.toNat_inj, UInt32.toNat_zero]
  exact sound.triangles_of rep.positive holds asked src b1 b2

/-- One call, which is never stuck. -/
theorem perform {a : Action} (clean : a.Clean c) :
    ∃ c' b, a.perform E c = some (c', b) ∧ Represents E c' (multigraph.effect a S) ∧ multigraph.answers S a b := by
  cases a with
  | insert e next prev => exact ⟨_, .inserted, rfl, rep.insert clean.1 clean.2 e next prev, trivial⟩
  | queryEdge e =>
      obtain ⟨lists, -, -, weight⟩ := rep.sound
      obtain ⟨w, found, count⟩ := weight clean e
      exact ⟨c, .weight w, by rw [Action.perform, found, Option.map_some], rep, count⟩
  | querySuccess src =>
      obtain ⟨succ, -, lists, listed, -⟩ := rep.enumerates src
      exact ⟨c, .counted succ.length, by rw [Action.perform, querySuccess, listed]; rfl, rep, lists.length⟩
  | querySuccessor src buf U =>
      obtain ⟨succ, -, lists, listed, -⟩ := rep.enumerates src
      refine ⟨c, .written (buf.write U succ), by rw [Action.perform, querySuccessor_eq listed, Option.map_some], rep, ?_⟩
      exact writes_write lists.1 (fun d => (lists.2 d).trans Multiset.mem_toFinset) buf U
  | queryPrecursor dst buf U =>
      obtain ⟨-, pred, -, -, ⟨once, exactly⟩, before⟩ := rep.enumerates dst
      refine ⟨c, .written (buf.write U pred), by rw [Action.perform, before, Option.map_some], rep, ?_⟩
      exact writes_write once exactly buf U
  | getNeighbors src =>
      obtain ⟨succ, -, lists, listed, -⟩ := rep.enumerates src
      refine ⟨c, .neighbors (succ.map (·, 1)), by rw [Action.perform, getNeighbors, listed]; rfl, rep, ?_⟩
      have ids : (succ.map fun d => (d, 1)).map Prod.fst = succ := by
        rw [List.map_map]
        exact List.map_id _
      simp only [multigraph, ids]
      refine ⟨lists.1, fun d => (lists.2 d).trans Multiset.mem_toFinset, fun n hn => ?_⟩
      obtain ⟨d, -, rfl⟩ := List.mem_map.mp hn
      rfl
  | queryTriangles src b1 b2 =>
      exact ⟨c, .counted _, by rw [Action.perform, (rep.triangles clean src b1 b2).1, Option.map_some], rep, rfl⟩
  | queryTriangleNew src b1 b2 =>
      exact ⟨c, .counted _, by rw [Action.perform, (rep.triangles clean src b1 b2).2, Option.map_some], rep, rfl⟩

end Represents

/-- In every run in which no counter and no weight overflows no call fails, and all answers are
    those of the multiset of the edges inserted. -/
theorem run_multigraph (E : Env) {len : Nat} (size : 0 < len ∧ len ≤ maxTcm) {calls : List Action}
    (clean : Calls.Allowed (Action.perform E) Action.Clean calls (cleared len)) :
    ∃ start, new len = some start ∧ ∃ c answers S, Calls.run (Action.perform E) calls start = some (c, answers) ∧
      Represents E c S ∧ multigraph.Right 0 calls answers S := by
  refine ⟨_, new_inside size.2, Calls.run_total (fun _ _ _ rep clean => ?_) (represents_cleared size.1) clean⟩
  exact Represents.perform rep clean

/-- An edge is inserted twice, and asked for. -/
def twice : List Action :=
  [.insert ⟨1, 2⟩ none none, .insert ⟨1, 2⟩ none none, .queryEdge ⟨1, 2⟩, .getNeighbors 1]

theorem run_multigraph_twice : ∃ start, new 1 = some start ∧ ∃ c answers S,
    Calls.run (Action.perform colliding) twice start = some (c, answers) ∧ Represents colliding c S ∧
      multigraph.Right 0 twice answers S := by
  apply run_multigraph colliding (by decide)
  have low := @insertCalls_low colliding 1 [(⟨1, 2⟩, none, none), (⟨1, 2⟩, none, none)] (by decide)
  refine ⟨⟨low [] List.nil_prefix, by decide⟩, fun c b done => ?_⟩
  cases done
  have size : (insertWeight colliding (cleared 1) ⟨1, 2⟩ none none).heap.objects.length = 1 :=
    congrArg Prod.snd (size_insertWeight colliding (cleared 1) ⟨1, 2⟩ none none)
  refine ⟨⟨low [(⟨1, 2⟩, none, none)] ⟨_, rfl⟩, by omega⟩, fun c b done => ?_⟩
  cases done
  exact ⟨low _ List.prefix_rfl, fun _ _ _ => ⟨trivial, fun _ _ _ => trivial⟩⟩

end Multigraph

end Chandelier

end WindBell

end CuckooGraph
