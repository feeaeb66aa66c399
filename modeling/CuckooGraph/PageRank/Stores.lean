import CuckooGraph.PageRank
import CuckooGraph.TopSubgraph
import CuckooGraph.WindBell.Enumeration

/-! # Page rank over both stores

`PageRank_CuckooGraph_final` and `PageRank_wind_final` choose the same subgraph and
put it into a graph of either kind. The matrix does not depend on the order in which
a graph lists neighbours.
-/

namespace CuckooGraph

open TwoLayer Holemerge WindBell.Chandelier

namespace PageRank

variable {N : Nat}

/-- The successors of a chosen node among the chosen nodes. -/
def successors (top : List Key) (edge : List Edge) (j : Fin top.length) : List (Fin top.length) :=
  (List.finRange top.length).filter fun i => ⟨top.get j, top.get i⟩ ∈ edge

/-- The matrix of the subgraph of the chosen nodes. -/
def induced (top : List Key) (edge : List Edge) (d : ℚ) : Matrix top.length := fun i j =>
  d * (if ⟨top.get j, top.get i⟩ ∈ edge then 1 / ((successors top edge j).length : ℚ) else 0) +
    (1 - d) * (1 / top.length)

/-- What is listed for the ids of a subgraph makes the matrix of the subgraph. -/
theorem pageRank_induced {top : List Key} (nodup : top.Nodup) (edge : List Edge) {neighbors : Key → List (Key × Nat)}
    {next : Key → List Key} (listed : ∀ u, neighbors u = (next u).map (·, 1)) (once : ∀ u, (next u).Nodup)
    (members : ∀ u x, x ∈ next u ↔ ⟨u, x⟩ ∈ TopSubgraph.subgraph top edge) (d e : ℚ) (maxIterations : Nat) :
    pageRank top.length d e maxIterations neighbors =
      some (iterate (induced top edge d) e maxIterations fun _ => 1) := by
  have inside : ∀ u, ∀ x ∈ next u, 1 ≤ x ∧ x ≤ top.length := fun u x hx =>
    (TopSubgraph.subgraph_inside ((members u x).mp hx)).2
  have edges : ∀ i j : Fin top.length, ((i : Int) + 1) ∈ next (j + 1) ↔ ⟨top.get j, top.get i⟩ ∈ edge := fun i j =>
    (members _ _).trans (TopSubgraph.mem_subgraph nodup i j)
  have count : ∀ j : Fin top.length, (next (j + 1)).length = (successors top edge j).length := by
    intro j
    obtain ⟨rows, same⟩ := index_rows (inside (j + 1))
    have distinct : rows.Nodup := by
      have := once (j + 1)
      rw [same] at this
      exact this.of_map
    rw [same, List.length_map]
    refine List.Perm.length_eq ((List.perm_ext_iff_of_nodup distinct ((List.nodup_finRange _).filter _)).mpr fun i => ?_)
    rw [List.mem_filter, decide_eq_true_eq, ← edges i j, same]
    simp [List.mem_finRange, Fin.val_inj]
  have filled : matrix neighbors d = some (induced top edge d) := by
    rw [matrix_eq listed once inside d]
    refine congrArg some (funext fun i => funext fun j => ?_)
    simp only [share, edges, count, induced]
  rw [pageRank, filled]
  rfl

end PageRank

open PageRank

/-- From the same edges both drivers choose the same nodes, use no index out of range,
    and come to the ranks of the subgraph of these nodes in as many iterations. -/
theorem pageRank_stores (E : Env) (edge : List Edge) {nd : List NodeDegree} (order : nd.Perm (TopSubgraph.node edge))
    {maxtopk : Nat} {top : List Key} (chosen : TopSubgraph.topk maxtopk nd = some top) {l1 l2 : Nat}
    (sizes : 2 ≤ l2 ∧ l2 ≤ l1) (s1 s2 : Int) {len : Nat} (positive : 0 < len) {calls : List WindBell.Chandelier.Call}
    (same : calls.map Prod.fst = TopSubgraph.subgraph top edge) (roomy : Roomy E len calls) (d e : ℚ)
    (maxIterations : Nat) :
    let hole := insertEdges E (Memory.initial, fresh l1 l2 s1 s2) (TopSubgraph.subgraph top edge)
    let wind := run E len (inserts calls)
    let ranks := iterate (induced top edge d) e maxIterations fun _ => 1
    top.length = maxtopk ∧ pageRank top.length d e maxIterations (hole.2.getNeighbors E hole.1) = some ranks ∧
      ∃ neighbors, (∀ u, wind.getNeighbors E u = some (neighbors u)) ∧
        pageRank top.length d e maxIterations neighbors = some ranks := by
  intro hole wind ranks
  obtain ⟨length, nodup⟩ := TopSubgraph.topk_nodup edge order chosen
  refine ⟨length, ?_, ?_⟩
  · have known : ∀ e ∈ TopSubgraph.subgraph top edge, e.src ≠ 0 ∧ e.dst ≠ 0 := fun e he => by
      obtain ⟨⟨src, -⟩, dst, -⟩ := TopSubgraph.subgraph_inside he
      exact ⟨(Int.lt_of_lt_of_le Int.zero_lt_one src).ne', (Int.lt_of_lt_of_le Int.zero_lt_one dst).ne'⟩
    choose listed once members using fun u => getNeighbors_insertEdges E sizes s1 s2 known u
    exact pageRank_induced nodup edge listed once members d e maxIterations
  · obtain ⟨lists, sound, holds⟩ := inserts_sound len calls roomy
    have here : 0 < wind.len := by
      rw [(size_run E len (inserts calls)).1]
      exact positive
    choose next listed once members using fun u => sound.successors here u
    refine ⟨fun u => (next u).map (·, 1), fun u => ?_, ?_⟩
    · exact congrArg (Option.map (List.map (·, 1))) (listed u)
    · refine pageRank_induced nodup edge (fun _ => rfl) once (fun u x => (members u x).trans ?_) d e maxIterations
      rw [← same]
      exact holds ⟨u, x⟩

def twoWays : List Edge := [⟨5, 6⟩, ⟨6, 5⟩, ⟨5, 7⟩, ⟨8, 5⟩, ⟨5, 6⟩]

def twoCalls : List WindBell.Chandelier.Call := [(⟨1, 2⟩, none, none), (⟨2, 1⟩, none, none), (⟨1, 2⟩, none, none)]

theorem pageRank_stores_two :
    let hole := insertEdges colliding (Memory.initial, fresh bl1 bl2 0 221) (TopSubgraph.subgraph [5, 6] twoWays)
    let wind := run colliding 4 (inserts twoCalls)
    let ranks := iterate (induced [5, 6] twoWays (17 / 20)) (1 / 10) 100 fun _ => 1
    2 = 2 ∧ pageRank 2 (17 / 20) (1 / 10) 100 (hole.2.getNeighbors colliding hole.1) = some ranks ∧
      ∃ neighbors, (∀ u, wind.getNeighbors colliding u = some (neighbors u)) ∧
        pageRank 2 (17 / 20) (1 / 10) 100 neighbors = some ranks := by
  have chosen : TopSubgraph.topk 2 (TopSubgraph.node twoWays) = some [5, 6] := by decide
  have same : twoCalls.map Prod.fst = TopSubgraph.subgraph [5, 6] twoWays := by decide
  exact pageRank_stores colliding twoWays (.refl _) chosen default_sizes 0 221 (by decide) same
    (roomy_few 4 (by decide)) (17 / 20) (1 / 10) 100

end CuckooGraph
