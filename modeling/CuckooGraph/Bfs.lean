import CuckooGraph.BreadthFirst
import CuckooGraph.Table.Loop
import CuckooGraph.Unweighted.Successors

/-! # Breadth first search over a graph

`hole_Bfs` keeps the nodes found in `bfs_node`, and marks them in `visited` when it
puts them into the queue.
-/

namespace CuckooGraph

open BreadthFirst

/-- The variables of `hole_Bfs`. -/
structure Bfs where
  nodeNum : Nat
  bfsNode : List Key
  visited : Key → Bool
  q : List Key

namespace Bfs

def start (src : Key) : Bfs := ⟨1, [src], Function.update (fun _ => false) src true, [src]⟩

/-- `node_num` is a `uint32_t`. -/
def visit (s : Bfs) (edge : Key × Nat) : Bfs :=
  if s.visited edge.1 then s
  else { nodeNum := (s.nodeNum + 1) % 2 ^ 32, bfsNode := s.bfsNode ++ [edge.1],
         visited := Function.update s.visited edge.1 true, q := s.q ++ [edge.1] }

/-- One pass of the loop. -/
def pass (neighbors : Key → List (Key × Nat)) (s : Bfs) : Bfs :=
  match s.q with
  | [] => s
  | top :: q =>
      let temp := neighbors top
      if temp.length = 0 then { s with q := q } else temp.foldl visit { s with q := q }

end Bfs

/-- `hole_Bfs`, given what `GetNeighbors` returns. -/
def holeBfs (neighbors : Key → List (Key × Nat)) (fuel : Nat) (src : Key) : Option Bfs :=
  Loop.run (fun s => decide (s.q.length ≠ 0)) (Bfs.pass neighbors) fuel (Bfs.start src)

namespace Bfs

theorem visit_old {s : Bfs} {edge : Key × Nat} (seen : s.visited edge.1 = true) : s.visit edge = s := by
  rw [visit, if_pos seen]

theorem visit_new {s : Bfs} {edge : Key × Nat} (new : ¬ s.visited edge.1 = true) : s.visit edge =
    { nodeNum := (s.nodeNum + 1) % 2 ^ 32, bfsNode := s.bfsNode ++ [edge.1],
      visited := Function.update s.visited edge.1 true, q := s.q ++ [edge.1] } := by
  rw [visit, if_neg new]

theorem visit_marks (s : Bfs) (edge : Key × Nat) (v : Key) :
    (s.visit edge).visited v = true ↔ v = edge.1 ∨ s.visited v = true := by
  by_cases seen : s.visited edge.1 = true
  · rw [visit_old seen]
    by_cases here : v = edge.1 <;> simp [here, seen]
  · rw [visit_new seen]
    by_cases here : v = edge.1 <;> simp [here]

/-- `node_num` counts along. -/
theorem foldl_nodeNum (temp : List (Key × Nat)) {s : Bfs} (count : s.nodeNum = s.bfsNode.length % 2 ^ 32) :
    (temp.foldl visit s).nodeNum = (temp.foldl visit s).bfsNode.length % 2 ^ 32 := by
  induction temp generalizing s with
  | nil => exact count
  | cons edge temp ih =>
      apply ih
      by_cases seen : s.visited edge.1 = true
      · rw [visit_old seen, count]
      · rw [visit_new seen]
        simp only [count, List.length_append, List.length_singleton]
        omega

/-- What a scan of neighbours finds. -/
theorem foldl_visit (temp : List (Key × Nat)) (s : Bfs) : ∃ fresh : List Key, fresh.Nodup ∧
    (∀ v, v ∈ fresh ↔ v ∈ temp.map Prod.fst ∧ ¬ s.visited v = true) ∧
    (temp.foldl visit s).bfsNode = s.bfsNode ++ fresh ∧ (temp.foldl visit s).q = s.q ++ fresh ∧
    ∀ v, (temp.foldl visit s).visited v = true ↔ s.visited v = true ∨ v ∈ fresh := by
  obtain ⟨fresh, once, members, seen, logs⟩ := scan_fresh Prod.fst (fun s v => Bfs.visited s v = true) visit visit_marks temp s
  refine ⟨fresh, once, members, logs Bfs.bfsNode fun s edge => ?_, logs Bfs.q fun s edge => ?_, seen⟩
  all_goals exact ⟨fun old => by rw [visit_old old], fun new => by rw [visit_new new]⟩

/-- The nodes found are those taken out of the queue, and those which are in it. -/
structure Searched (neighbors : Key → List (Key × Nat)) (src : Key) (done : List Key) (s : Bfs) : Prop where
  found : Found (fun u => (neighbors u).map Prod.fst) src done s.q
  bfsNode : s.bfsNode = done ++ s.q
  visited : ∀ v, s.visited v = true ↔ v ∈ done ++ s.q
  nodeNum : s.nodeNum = (done ++ s.q).length % 2 ^ 32
  first : s.bfsNode.head? = some src

variable {neighbors : Key → List (Key × Nat)} {src : Key} {done : List Key} {s : Bfs}

theorem searched_start : Searched neighbors src [] (start src) where
  found := found_start
  bfsNode := rfl
  visited v := by
    by_cases here : v = src <;> simp [start, here]
  nodeNum := rfl
  first := rfl

theorem Searched.pass {u : Key} {q : List Key} (searched : Searched neighbors src done s) (queue : s.q = u :: q) :
    Searched neighbors src (done ++ [u]) (s.pass neighbors) := by
  have passed : s.pass neighbors = (neighbors u).foldl visit { s with q := q } := by
    rw [Bfs.pass, queue]
    dsimp only
    split
    · rename_i none
      rw [List.length_eq_zero_iff.mp none, List.foldl_nil]
    · rfl
  obtain ⟨found, nodes, visited, count, first⟩ := searched
  rw [queue] at found nodes visited count
  obtain ⟨fresh, once, members, nodes', queue', visited'⟩ := foldl_visit (neighbors u) { s with q := q }
  have count' := foldl_nodeNum (neighbors u) (s := { s with q := q }) (by rw [count, nodes])
  rw [← passed] at nodes' queue' visited' count'
  have same : (done ++ [u]) ++ (q ++ fresh) = (done ++ u :: q) ++ fresh := by simp
  constructor
  case found =>
    rw [queue']
    refine found.pop once fun v => ?_
    rw [members, visited]
  case bfsNode => rw [nodes', queue', same, nodes]
  case visited =>
    intro v
    rw [visited', queue', same, List.mem_append, visited]
  case nodeNum =>
    rw [count', nodes', queue', same, nodes]
  case first =>
    rw [nodes', List.head?_append, first]
    rfl

end Bfs

/-- The loop ends, and has found every node which is reached once, by distance. -/
theorem holeBfs_exact (neighbors : Key → List (Key × Nat)) (src : Key)
    (finite : {v | Reach (fun u => (neighbors u).map Prod.fst) src v}.Finite) :
    let next := fun u => (neighbors u).map Prod.fst
    ∃ s, (∀ fuel, {v | Reach next src v}.ncard ≤ fuel → holeBfs neighbors fuel src = some s) ∧
      s.bfsNode.Nodup ∧ (∀ v, v ∈ s.bfsNode ↔ Reach next src v) ∧ s.bfsNode.head? = some src ∧
      s.bfsNode.Pairwise (fun u v => hop next src u ≤ hop next src v) ∧
      ({v | Reach next src v}.ncard < 2 ^ 32 → s.nodeNum = s.bfsNode.length) := by
  intro next
  have keep : ∀ s : Bfs, decide (s.q.length ≠ 0) = true → True →
      (∃ done, Bfs.Searched neighbors src done s) → ∃ done, Bfs.Searched neighbors src done (s.pass neighbors) := by
    rintro s more - ⟨done, searched⟩
    cases queue : s.q with
    | nil => simp [queue] at more
    | cons u q => exact ⟨_, searched.pass queue⟩
  have less : ∀ s : Bfs, decide (s.q.length ≠ 0) = true → True → (∃ done, Bfs.Searched neighbors src done s) →
      {v | Reach next src v}.ncard + (s.pass neighbors).q.length - (s.pass neighbors).bfsNode.length <
        {v | Reach next src v}.ncard + s.q.length - s.bfsNode.length := by
    rintro s more - ⟨done, searched⟩
    cases queue : s.q with
    | nil => simp [queue] at more
    | cons u q =>
        have passed := searched.pass queue
        have bound : _ ≤ {v | Reach next src v}.ncard := passed.found.length_le finite
        have before := searched.bfsNode
        have after := passed.bfsNode
        rw [queue] at before
        rw [before, after]
        simp only [List.length_append, List.length_cons, List.length_nil] at bound ⊢
        omega
  have short : {v | Reach next src v}.ncard + (Bfs.start src).q.length - (Bfs.start src).bfsNode.length ≤
      {v | Reach next src v}.ncard := (Nat.add_sub_cancel ..).le
  obtain ⟨s, ended⟩ := Loop.run_ends (fun s : Bfs => {v | Reach next src v}.ncard + s.q.length - s.bfsNode.length)
    keep less short (Loop.each_of_all (fun _ => trivial) _ _) ⟨[], Bfs.searched_start⟩
  obtain ⟨done, searched⟩ := Loop.run_inv keep (Loop.each_of_all (fun _ => trivial) _ _) ⟨[], Bfs.searched_start⟩ ended
  have empty : s.q = [] := by simpa using Loop.run_exit ended
  have found := searched.found
  have nodes := searched.bfsNode
  have count := searched.nodeNum
  rw [empty] at found nodes count
  rw [List.append_nil] at nodes count
  refine ⟨s, fun fuel enough => Loop.run_more ended enough, ?_, fun v => ?_, searched.first, ?_, fun few => ?_⟩
  · rw [nodes]
    simpa using found.nodup
  · rw [nodes]
    exact found.complete
  · rw [nodes]
    simpa using found.sorted
  · have bound := found.length_le finite
    rw [List.append_nil] at bound
    rw [nodes, count, Nat.mod_eq_of_lt (bound.trans_lt few)]

section Stored

variable {es : List Edge} {src : Key} {next : Key → List Key}

/-- A node which is reached is the source or the end of an edge. -/
theorem reach_edges (listed : ∀ u, ∀ d ∈ next u, ⟨u, d⟩ ∈ es) {v : Key} (reached : Reach next src v) :
    v = src ∨ ∃ e ∈ es, e.dst = v := by
  obtain ⟨n, walk⟩ := reached
  cases walk with
  | here => exact .inl rfl
  | step _ last => exact .inr ⟨_, listed _ _ last.2, rfl⟩

/-- The nodes of a graph which holds some edges are finitely many, and fewer than 2^32. -/
theorem reach_stored (listed : ∀ u, ∀ d ∈ next u, ⟨u, d⟩ ∈ es) (inside : ∀ e ∈ es, IsId e.src ∧ IsId e.dst)
    (hs : src = 0 ∨ IsId src) : {v | Reach next src v}.Finite ∧ {v | Reach next src v}.ncard < 2 ^ 32 := by
  rcases hs with rfl | hs
  · have only : {v | Reach next (0 : Key) v} ⊆ {0} := by
      rintro v ⟨n, walk⟩
      induction walk with
      | here => rfl
      | step _ last ih =>
          obtain rfl := Set.mem_singleton_iff.mp ih
          exact absurd rfl (inside _ (listed _ _ last.2)).1.1
    refine ⟨(Set.finite_singleton 0).subset only, ?_⟩
    have few := Set.ncard_le_ncard only (Set.finite_singleton 0)
    rw [Set.ncard_singleton] at few
    omega
  · apply ids_few
    intro v reached
    rcases reach_edges listed reached with rfl | ⟨e, he, rfl⟩
    · exact hs
    · exact (inside e he).2

end Stored

/-- A cycle, a self-loop, and an edge inserted twice. -/
theorem holeBfs_exact_cycle :
    let s := insertEdges colliding (Memory.initial, Holemerge.fresh bl1 bl2 0 221) [⟨1, 2⟩, ⟨2, 1⟩, ⟨1, 1⟩, ⟨1, 2⟩]
    ∃ fuel r, holeBfs (s.2.getNeighbors colliding s.1) fuel 1 = some r ∧ r.nodeNum = r.bfsNode.length := by
  have listed := fun u d => ((getNeighbors_insertEdges colliding default_sizes 0 221
    (by decide : ∀ e ∈ [(⟨1, 2⟩ : Edge), ⟨2, 1⟩, ⟨1, 1⟩, ⟨1, 2⟩], e.src ≠ 0 ∧ e.dst ≠ 0) u).2.2 d).mp
  obtain ⟨finite, few⟩ := reach_stored listed (by simp [IsId]) (.inr (by simp [IsId] : IsId 1))
  obtain ⟨r, ends, -, -, -, -, count⟩ := holeBfs_exact _ 1 finite
  exact ⟨_, r, ends _ le_rfl, count few⟩

end CuckooGraph
