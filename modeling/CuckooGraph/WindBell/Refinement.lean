import CuckooGraph.Refinement
import CuckooGraph.Triangles
import CuckooGraph.WindBell.Enumeration

/-! # A Wind-Bell matrix is a set of edges

Whatever is inserted, deleted and asked for, all answers of a matrix are those of the set
of the edges inserted and not deleted since, as long as the counters stay below `MAXNUM`
and no node is deleted from between two others.
-/

namespace CuckooGraph

open TwoLayer Linked

namespace WindBell

namespace Chandelier

/-- A call on a matrix. A new node may come with stale pointers. -/
inductive Action
  | insert (e : Edge) (next prev : Option Addr)
  | deleteEdge (e : Edge)
  | queryEdge (e : Edge)
  | querySuccess (src : Key)
  | querySuccessor (src : Key) (buf : Buffer) (U : Nat)
  | queryPrecursor (dst : Key) (buf : Buffer) (U : Nat)
  | getNeighbors (src : Key)
  | queryTriangles (src : Key) (b1 b2 : Buffer)
  | queryTriangleNew (src : Key) (b1 b2 : Buffer)

inductive Answer
  | inserted
  | returned (found : Bool)
  | counted (n : Nat)
  | written (r : Buffer × Nat)
  | neighbors (v : List (Key × Nat))

def Action.perform (E : Env) : Action → Chandelier Unit → Option (Chandelier Unit × Answer)
  | .insert e next prev, c => some (c.insert E e next prev, .inserted)
  | .deleteEdge e, c => (c.deleteEdge E e).2.map fun found => ((c.deleteEdge E e).1, .returned found)
  | .queryEdge e, c => (c.queryEdge E e).map fun found => (c, .returned found)
  | .querySuccess src, c => (c.querySuccess E src).map fun n => (c, .counted n)
  | .querySuccessor src buf U, c => (c.querySuccessor E src buf U).map fun r => (c, .written r)
  | .queryPrecursor dst buf U, c => (c.queryPrecursor E dst buf U).map fun r => (c, .written r)
  | .getNeighbors src, c => (c.getNeighbors E src).map fun v => (c, .neighbors v)
  | .queryTriangles src b1 b2, c => (c.queryTriangles E src b1 b2).map fun n => (c, .counted n)
  | .queryTriangleNew src b1 b2, c => (c.queryTriangleNew E src b1 b2).map fun n => (c, .counted n)

/-- The matrix after a call. -/
def Action.after (E : Env) : Action → Chandelier Unit → Chandelier Unit
  | .insert e next prev, c => c.insert E e next prev
  | .deleteEdge e, c => (c.deleteEdge E e).1
  | _, c => c

theorem Action.next {E : Env} {a : Action} {c c' : Chandelier Unit} {b : Answer} (done : a.perform E c = some (c', b)) :
    c' = a.after E c := by
  cases a with
  | insert e next prev => exact (Prod.mk.inj (Option.some.inj done)).1.symm
  | _ =>
      obtain ⟨r, -, same⟩ := Option.map_eq_some_iff.mp done
      exact (Prod.mk.inj same).1.symm

/-- What a matrix is for. -/
def edgeSet : Calls.Spec (Finset Edge) Action Answer where
  effect
    | .insert e _ _, S => Insert.insert e S
    | .deleteEdge e, S => S.erase e
    | _, S => S
  answers
    | _, .insert _ _ _, .inserted => True
    | S, .deleteEdge e, .returned found => found = true ↔ e ∈ S
    | S, .queryEdge e, .returned found => found = true ↔ e ∈ S
    | S, .querySuccess src, .counted n => n = (S.filter fun e => e.src = src).card
    | S, .querySuccessor src buf U, .written r => Writes buf U r fun d => ⟨src, d⟩ ∈ S
    | S, .queryPrecursor dst buf U, .written r => Writes buf U r fun x => ⟨x, dst⟩ ∈ S
    | S, .getNeighbors src, .neighbors v =>
        (v.map Prod.fst).Nodup ∧ (∀ d, d ∈ v.map Prod.fst ↔ ⟨src, d⟩ ∈ S) ∧ ∀ n ∈ v, n.2 = 1
    | S, .queryTriangles src _ _, .counted n => n = triangles S.toList src
    | S, .queryTriangleNew src _ _, .counted n => n = triangles S.toList src
    | _, _, _ => False

/-- The cells which are searched are found, and no deletion goes wrong. -/
def Action.Clean (E : Env) : Action → Chandelier Unit → Prop
  | .deleteEdge e, c => c.Low ∧ ¬ Middle E c e
  | .insert _ _ _, c => c.Low
  | .queryEdge _, c => c.Low
  | .queryTriangles _ _ _, c => c.Low
  | .queryTriangleNew _ _ _, c => c.Low
  | _, _ => True

/-- A matrix which stands for a set of edges. -/
structure Represents (E : Env) (c : Chandelier Unit) (S : Finset Edge) : Prop where
  sound : ∃ lists, c.Sound E lists ∧ ∀ e, c.Holds lists e ↔ e ∈ S
  positive : 0 < c.len

variable {E : Env} {c c' : Chandelier Unit} {S : Finset Edge}

theorem represents_cleared {len : Nat} (positive : 0 < len) : Represents E (cleared len) ∅ where
  sound := ⟨fun _ => [], sound_cleared len, fun e => by simp [Holds, Found]⟩
  positive := positive

namespace Represents

variable (rep : Represents E c S)
include rep

theorem insert (low : c.Low) (e : Edge) (next prev : Option Addr) :
    Represents E (c.insert E e next prev) (Insert.insert e S) where
  sound := by
    obtain ⟨lists, sound, holds⟩ := rep.sound
    obtain ⟨lists', sound', holds'⟩ := sound.insert low e next prev
    exact ⟨lists', sound', fun e' => by rw [holds', holds, Finset.mem_insert]⟩
  positive := by
    have size := congrArg Prod.fst (size_insert E c e next prev)
    exact rep.positive.trans_eq size.symm

theorem delete (low : c.Low) {e : Edge} (outer : ¬ Middle E c e) :
    Represents E (c.deleteEdge E e).1 (S.erase e) ∧ ∃ found, (c.deleteEdge E e).2 = some found ∧ (found = true ↔ e ∈ S) := by
  obtain ⟨lists, sound, holds⟩ := rep.sound
  obtain ⟨lists', sound', -, holds'⟩ := sound.delete low outer
  obtain ⟨asked, found, done⟩ := ((sound.deletes_iff low e).mpr outer).returns
  obtain ⟨b, queried, here⟩ := sound.query low e
  obtain rfl := Option.some.inj (found.symm.trans queried)
  refine ⟨⟨⟨lists', sound', fun e' => ?_⟩, ?_⟩, asked, done, here.trans (holds e)⟩
  · rw [holds', holds, Finset.mem_erase]
  · exact rep.positive.trans_eq (size_perform c (.delete e)).1.symm

/-- All enumerations are those of the set. -/
theorem enumerates (v : Key) (buf : Buffer) (U : Nat) : Enumerates E c S.toList v buf U := by
  obtain ⟨lists, sound, holds⟩ := rep.sound
  exact sound.enumerates rep.positive (fun e => (holds e).trans Finset.mem_toList.symm) v buf U

/-- `query_success` counts the edges out of a node. -/
theorem counted (src : Key) : ∃ n, c.querySuccess E src = some n ∧ n = (S.filter fun e => e.src = src).card := by
  obtain ⟨succ, -, -, ⟨once, exactly, -⟩, -, -, -, counted⟩ := rep.enumerates src (fun _ => 0) 0
  have lists : Lists S src (succ.1.slice 0 succ.2) := ⟨once, fun d => (exactly d).trans Finset.mem_toList⟩
  refine ⟨succ.2, counted, ?_⟩
  rw [← lists.length, Buffer.slice, List.length_map, List.length_range]

theorem triangles (low : c.Low) (src : Key) (b1 b2 : Buffer) :
    c.queryTriangles E src b1 b2 = some (CuckooGraph.triangles S.toList src) ∧
      c.queryTriangleNew E src b1 b2 = some (CuckooGraph.triangles S.toList src) := by
  obtain ⟨lists, sound, holds⟩ := rep.sound
  exact sound.triangles low rep.positive (fun e => (holds e).trans Finset.mem_toList.symm) src b1 b2

/-- One call, which is never stuck. -/
theorem perform {a : Action} (clean : a.Clean E c) :
    ∃ c' b, a.perform E c = some (c', b) ∧ Represents E c' (edgeSet.effect a S) ∧ edgeSet.answers S a b := by
  cases a with
  | insert e next prev => exact ⟨_, .inserted, rfl, rep.insert clean e next prev, trivial⟩
  | deleteEdge e =>
      obtain ⟨erased, found, done, right⟩ := rep.delete clean.1 clean.2
      exact ⟨_, .returned found, by rw [Action.perform, done, Option.map_some], erased, right⟩
  | queryEdge e =>
      obtain ⟨lists, sound, holds⟩ := rep.sound
      obtain ⟨found, done, here⟩ := sound.query clean e
      exact ⟨c, .returned found, by rw [Action.perform, done, Option.map_some], rep, here.trans (holds e)⟩
  | querySuccess src =>
      obtain ⟨n, counted, right⟩ := rep.counted src
      exact ⟨c, .counted n, by rw [Action.perform, counted, Option.map_some], rep, right⟩
  | querySuccessor src buf U =>
      obtain ⟨succ, -, done, writes, -⟩ := rep.enumerates src buf U
      simp only [Finset.mem_toList] at writes
      exact ⟨c, .written succ, by rw [Action.perform, done, Option.map_some], rep, writes⟩
  | queryPrecursor dst buf U =>
      obtain ⟨-, pred, -, -, done, writes, -⟩ := rep.enumerates dst buf U
      simp only [Finset.mem_toList] at writes
      exact ⟨c, .written pred, by rw [Action.perform, done, Option.map_some], rep, writes⟩
  | getNeighbors src =>
      obtain ⟨succ, -, -, ⟨once, exactly, -⟩, -, -, listed, -⟩ := rep.enumerates src (fun _ => 0) 0
      have ids : ((succ.1.slice 0 succ.2).map fun d => (d, 1)).map Prod.fst = succ.1.slice 0 succ.2 := by
        rw [List.map_map]
        exact List.map_id _
      refine ⟨c, .neighbors _, by rw [Action.perform, listed, Option.map_some], rep, ?_⟩
      simp only [edgeSet, ids]
      refine ⟨once, fun d => (exactly d).trans Finset.mem_toList, fun n hn => ?_⟩
      obtain ⟨d, -, rfl⟩ := List.mem_map.mp hn
      rfl
  | queryTriangles src b1 b2 =>
      exact ⟨c, .counted _, by rw [Action.perform, (rep.triangles clean src b1 b2).1, Option.map_some], rep, rfl⟩
  | queryTriangleNew src b1 b2 =>
      exact ⟨c, .counted _, by rw [Action.perform, (rep.triangles clean src b1 b2).2, Option.map_some], rep, rfl⟩

end Represents

/-- In every run whose deletions do not go wrong no call fails, all answers are those of a set
    of edges, and the matrix reached stands for this set. -/
theorem run_represents (E : Env) {len : Nat} (size : 0 < len ∧ len ≤ maxTcm) {calls : List Action}
    (clean : Calls.Allowed (Action.perform E) (Action.Clean E) calls (cleared len)) :
    ∃ start, new len = some start ∧ ∃ c answers S, Calls.run (Action.perform E) calls start = some (c, answers) ∧
      Represents E c S ∧ edgeSet.Right ∅ calls answers S := by
  refine ⟨_, new_inside size.2, Calls.run_total (fun _ _ _ rep clean => ?_) (represents_cleared size.1) clean⟩
  exact Represents.perform rep clean

/-- Two edges in one list, of which the first comes out again. -/
def passing : List Action :=
  [.insert ⟨1, 1⟩ none none, .insert ⟨2, 1⟩ none none, .deleteEdge ⟨2, 1⟩, .queryEdge ⟨2, 1⟩, .getNeighbors 1]

theorem passing_clean : Calls.Allowed (Action.perform colliding) (Action.Clean colliding) passing (cleared 1) := by
  obtain ⟨two, here⟩ : ∃ two : List Op, two = [.insert ⟨1, 1⟩ none none, .insert ⟨2, 1⟩ none none] := ⟨_, rfl⟩
  have outer : Outer colliding 1 two := by
    intro before e part
    have last := part.subset (List.mem_append_right before (List.mem_singleton_self (Op.delete e)))
    simp [here] at last
  have low := run_low 1 two (by rw [here]; decide) outer
  have inner : ¬ Middle colliding (run colliding 1 two) ⟨2, 1⟩ := by
    rintro ⟨p, a, n, found, -, inner, -⟩
    obtain ⟨rfl, rfl⟩ : p = (0, 0) ∧ a = 1 := by
      have first : (run colliding 1 two).seek colliding ⟨2, 1⟩ = some (some ((0, 0), 1)) := by
        rw [here]
        decide +kernel
      simpa using found.symm.trans first
    apply inner
    rw [here]
    decide +kernel
  obtain ⟨lists, sound, -⟩ := run_sound 1 two low outer
  obtain ⟨-, -, rest, -⟩ := sound.delete (low two List.prefix_rfl) inner
  have before : ∀ ops, ops <+: two → (run colliding 1 ops).Low := low
  subst here
  refine ⟨before [] List.nil_prefix, fun c b done => ?_⟩
  obtain rfl := Action.next done
  refine ⟨before [.insert ⟨1, 1⟩ none none] ⟨_, rfl⟩, fun c b done => ?_⟩
  obtain rfl := Action.next done
  refine ⟨⟨before _ List.prefix_rfl, inner⟩, fun c b done => ?_⟩
  obtain rfl := Action.next done
  exact ⟨rest, fun c b done => ⟨trivial, fun _ _ _ => trivial⟩⟩

theorem run_represents_passing : ∃ start, new 1 = some start ∧ ∃ c answers S,
    Calls.run (Action.perform colliding) passing start = some (c, answers) ∧ Represents colliding c S ∧
      edgeSet.Right ∅ passing answers S :=
  run_represents colliding (by decide) passing_clean

end Chandelier

end WindBell

end CuckooGraph
