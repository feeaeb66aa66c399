import CuckooGraph.Refinement
import CuckooGraph.Weighted.Listing

/-! # A weighted graph is a map of weights

All answers of the weighted build are those of the edges inserted so far and their total
weights, as long as nothing but 1 is added to an edge outside of the S-CHTs, and
`query_successor` is not asked for a source stored inline.
-/

namespace CuckooGraph

open TwoLayer Holemerge

namespace Weighted

inductive Action
  | insert (e : Edge) (w : UInt32)
  | query (e : Edge)
  | querySuccessor (src : Key) (buf : Buffer) (U : Nat)
  | getNeighbors (src : Key)

inductive Answer
  | inserted (done : Bool)
  | queried (weight : UInt32)
  | written (r : Buffer × Nat)
  | neighbors (v : List (Key × Nat))

def Action.perform (E : Env) : Action → Memory Cell × Holemerge Cell → Option ((Memory Cell × Holemerge Cell) × Answer)
  | .insert e w, s =>
      let r := Weighted.insert E s.1 s.2 e w
      some ((r.1, r.2.1), .inserted r.2.2)
  | .query e, s => some (s, .queried (Weighted.query E s.1 s.2 e))
  | .querySuccessor src buf U, s => some (s, .written (Weighted.querySuccessor E s.1 s.2 src buf U))
  | .getNeighbors src, s => some (s, .neighbors (Weighted.getNeighbors E s.1 s.2 src))

/-- The edges inserted so far, and their weights modulo 2^32. -/
structure Weights where
  edges : Finset Edge
  weight : Edge → UInt32

/-- What a weighted graph is for. -/
def weights : Calls.Spec Weights Action Answer where
  effect
    | .insert e w, S => ⟨Insert.insert e S.edges, Function.update S.weight e (S.weight e + w)⟩
    | _, S => S
  answers
    | _, .insert _ _, .inserted done => done = true
    | S, .query e, .queried weight => weight = S.weight e
    | S, .querySuccessor src buf U, .written r =>
        Lists S.edges src (r.1.slice U r.2) ∧ ∀ i, i < U ∨ U + r.2 ≤ i → r.1 i = buf i
    | S, .getNeighbors src, .neighbors v => Lists S.edges src (v.map Prod.fst) ∧ ∀ n ∈ v, n.2 = 1
    | _, _, _ => False

/-- The ids are no marks of free cells, and no call comes to what goes wrong. -/
def Action.Clean (E : Env) : Action → Memory Cell × Holemerge Cell → Prop
  | .insert e w, s => (e.src ≠ 0 ∧ e.dst ≠ 0) ∧ (Loose E s.1 s.2 e → w = 1)
  | .query e, _ => e.src ≠ 0 ∧ e.dst ≠ 0
  | .querySuccessor src _ _, s => src ≠ 0 ∧ ∀ b, s.2.findSlot E src = some b → b.pt = -1
  | .getNeighbors src, _ => src ≠ 0

/-- A state which stands for weights. -/
structure Represents (E : Env) (s : Memory Cell × Holemerge Cell) (S : Weights) : Prop where
  whole : Whole E s.1 s.2
  stored : ∀ e : Edge, e.dst ∈ (entries E s.1 s.2 e.src).map Cell.dst ↔ e ∈ S.edges
  weighed : ∀ e : Edge, weightIn (entries E s.1 s.2 e.src) e.dst = S.weight e

variable {E : Env} {s : Memory Cell × Holemerge Cell} {S : Weights} {e : Edge} {src : Key}

theorem represents_fresh {l1 l2 : Nat} (sizes : 2 ≤ l2 ∧ l2 ≤ l1) (s1 s2 : Int) :
    Represents E (Memory.initial, fresh l1 l2 s1 s2) ⟨∅, fun _ => 0⟩ where
  whole := fresh_whole sizes
  stored := fun e => by simp [entries, fresh_slots, itemsOf]
  weighed := fun e => by
    rw [entries, fresh_slots]
    rfl

namespace Represents

variable (rep : Represents E s S)
include rep

theorem insert (hs : e.src ≠ 0) (hd : e.dst ≠ 0) {w : UInt32} (adds : Loose E s.1 s.2 e → w = 1) :
    Represents E ((insert E s.1 s.2 e w).1, (insert E s.1 s.2 e w).2.1) (weights.effect (.insert e w) S) where
  whole := insert_whole rep.whole hs hd
  stored := fun f => by
    have step := insertArc_dsts (e := arc e w) weightOps_faithful rep.whole hs hd f.src f.dst
    refine step.trans ?_
    simp only [weights, Finset.mem_insert, ← rep.stored f]
    rw [or_comm]
    refine or_congr_left ?_
    obtain ⟨src, dst⟩ := f
    obtain ⟨src', dst'⟩ := e
    simp [arc, Entry.dst]
  weighed := fun f => by
    by_cases mine : f = e
    · subst mine
      obtain ⟨one, sum⟩ := weightIn_insert (w := w) rep.whole hs hd
      simp only [weights, Function.update_self, ← rep.weighed f]
      by_cases loose : Loose E s.1 s.2 f
      · rw [one loose, adds loose]
      · exact sum loose
    · simp only [weights, Function.update_of_ne mine, ← rep.weighed f]
      exact weightIn_frame rep.whole hs hd mine

/-- `GetNeighbors` lists the destinations, and so does `query_successor` if they are in S-CHTs. -/
theorem listed (hs : src ≠ 0) : ∃ ids, Lists S.edges src ids ∧ getNeighbors E s.1 s.2 src = ids.map (·, 1) ∧
    ((∀ b, s.2.findSlot E src = some b → b.pt = -1) → ∀ buf U, querySuccessor E s.1 s.2 src buf U = buf.write U ids) := by
  obtain ⟨ids, stored, once, neighbors, -, outside⟩ := listed_ids rep.whole hs
  refine ⟨ids, ⟨once, fun d => ?_⟩, neighbors, fun chts buf U => ?_⟩
  · rw [← Multiset.mem_coe, stored]
    exact rep.stored ⟨src, d⟩
  · rw [querySuccessor_ids, outside chts]

/-- One call. -/
theorem perform {a : Action} (clean : a.Clean E s) :
    ∃ s' b, a.perform E s = some (s', b) ∧ Represents E s' (weights.effect a S) ∧ weights.answers S a b := by
  cases a with
  | insert e w =>
      have returned : (Weighted.insert E s.1 s.2 e w).2.2 = true := insertArc_true rep.whole.grounded.framed
      exact ⟨_, _, rfl, rep.insert clean.1.1 clean.1.2 clean.2, returned⟩
  | query e => exact ⟨s, _, rfl, rep, (query_eq rep.whole clean.1 clean.2).trans (rep.weighed e)⟩
  | querySuccessor src buf U =>
      obtain ⟨ids, lists, -, written⟩ := rep.listed clean.1
      obtain ⟨count, slice, kept⟩ := Buffer.write_spec buf U ids
      refine ⟨s, _, rfl, rep, ?_⟩
      simp only [weights, written clean.2, count, slice]
      exact ⟨lists, kept⟩
  | getNeighbors src =>
      obtain ⟨ids, lists, neighbors, -⟩ := rep.listed clean
      refine ⟨s, _, rfl, rep, ?_⟩
      simp only [weights, neighbors, List.map_map, Function.comp_def, List.map_id']
      refine ⟨lists, fun n hn => ?_⟩
      obtain ⟨d, -, rfl⟩ := List.mem_map.mp hn
      rfl

end Represents

/-- In every run which avoids what goes wrong all answers are those of the weights inserted. -/
theorem run_weights (E : Env) {l1 l2 : Nat} (sizes : 2 ≤ l2 ∧ l2 ≤ l1) (s1 s2 : Int) {calls : List Action}
    (clean : Calls.Allowed (Action.perform E) (Action.Clean E) calls (Memory.initial, fresh l1 l2 s1 s2)) :
    ∃ s answers S, Calls.run (Action.perform E) calls (Memory.initial, fresh l1 l2 s1 s2) = some (s, answers) ∧
      Represents E s S ∧ weights.Right ⟨∅, fun _ => 0⟩ calls answers S := by
  refine Calls.run_total (fun _ _ _ rep clean => ?_) (represents_fresh sizes s1 s2) clean
  exact Represents.perform rep clean

/-- An insertion is repeated with weight 1. -/
def repeated : List Action := [.insert ⟨1, 2⟩ 5, .insert ⟨1, 2⟩ 1, .query ⟨1, 2⟩, .getNeighbors 1]

theorem run_weights_repeated : ∃ s answers S,
    Calls.run (Action.perform colliding) repeated (Memory.initial, fresh bl1 bl2 0 221) = some (s, answers) ∧
      Represents colliding s S ∧ weights.Right ⟨∅, fun _ => 0⟩ repeated answers S := by
  apply run_weights colliding default_sizes 0 221
  have absent : ¬ Loose colliding Memory.initial (fresh bl1 bl2 0 221) ⟨1, 2⟩ := by
    rintro ⟨s, stored, -⟩
    simp [fresh_slots] at stored
  have ids : (1 : Key) ≠ 0 ∧ (2 : Key) ≠ 0 := by decide
  exact ⟨⟨ids, fun loose => absurd loose absent⟩, fun _ _ _ => ⟨⟨ids, fun _ => rfl⟩, fun _ _ _ =>
    ⟨ids, fun _ _ _ => ⟨ids.1, fun _ _ _ => trivial⟩⟩⟩⟩

end Weighted

end CuckooGraph
