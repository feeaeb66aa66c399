import CuckooGraph.BreadthFirst
import CuckooGraph.Table.Loop
import CuckooGraph.Unweighted.Successors
import Mathlib.Data.Rat.Defs

/-! # Betweenness

For one source `ours_Bc` searches the graph breadth first and puts the nodes on a
stack, then goes through the stack and adds up the dependencies of the source. The
map `dist` says 0 both of the source and of what has not been seen yet.
-/

namespace CuckooGraph

/-- What `ours_Bc` makes for a source. The top of the stack `S` comes first. A
    distance is less than the number of ids, so that it cannot overflow. -/
structure Bc where
  sigma : Key → Nat
  dist : Key → Nat
  prev : Key → List Key
  Q : List Key
  S : List Key

namespace Bc

def start (s : Key) : Bc where
  sigma := Function.update (fun _ => 0) s 1
  dist := Function.update (fun _ => 0) s 0
  prev := fun _ => []
  Q := [s]
  S := []

/-- What is done for the neighbour `v` of `u`. `sigma` is of type `uint64_t`. -/
def visit (u : Key) (b : Bc) (v : Key) : Bc :=
  let b :=
    if b.dist v = 0 then { b with dist := Function.update b.dist v (b.dist u + 1), Q := b.Q ++ [v] } else b
  if b.dist v = b.dist u + 1 then
    { b with sigma := Function.update b.sigma v ((b.sigma v + b.sigma u) % 2 ^ 64),
             prev := Function.update b.prev v (b.prev v ++ [u]) }
  else b

/-- One pass of the queue loop. -/
def pass (neighbors : Key → List (Key × Nat)) (b : Bc) : Bc :=
  match b.Q with
  | [] => b
  | u :: Q => ((neighbors u).map Prod.fst).foldl (visit u) { b with Q := Q, S := u :: b.S }

/-- The queue loop. -/
def forward (neighbors : Key → List (Key × Nat)) (fuel : Nat) (s : Key) : Option Bc :=
  Loop.run (fun b => !b.Q.isEmpty) (pass neighbors) fuel (start s)

/-- `delta` and `CB`, in exact arithmetic. -/
structure Sums where
  delta : Key → ℚ
  CB : Key → ℚ

/-- What is done for `u` in `prev[v]`. -/
def credit (b : Bc) (s v : Key) (c : Sums) (u : Key) : Sums :=
  let sum := c.delta u + (b.sigma u : ℚ) / b.sigma v * (1 + c.delta v)
  let c := { c with delta := Function.update c.delta u sum }
  if u ≠ s then { c with CB := Function.update c.CB v (c.CB v + c.delta v) } else c

/-- The stack loop. -/
def backward (b : Bc) (s : Key) (CB : Key → ℚ) : Sums :=
  b.S.foldl (fun c v => (b.prev v).foldl (credit b s v) c) ⟨fun _ => 0, CB⟩

end Bc

end CuckooGraph
