import CuckooGraph.Basic
import Mathlib.Logic.Function.Basic

/-! # Strongly connected components

`CuckooGraph_tarjan` visits the nodes 1 to `node_num` of a graph depth first. It
has no array of discovery indices: `low[v]` is -1 until `v` is visited, then the
index of `v`, then lowered, and what a visited neighbour on the stack contributes
is its `low` at that moment.
-/

namespace CuckooGraph

/-- The fields of `CuckooGraph_tarjan`. `fault` says that an empty stack was
    popped, or `scc_list` written beyond its end. -/
structure Tarjan where
  index : Int
  low : Key → Int
  instack : Key → Bool
  sccCount : Nat
  stk : List Key
  sccList : List (List Key)
  fault : Bool

namespace Tarjan

/-- The state in which the program starts the algorithm. -/
def start : Tarjan := ⟨0, fun _ => -1, fun _ => false, 0, [], [[]], false⟩

/-- The lines of `tarjan` before its loop. -/
def enter (v : Key) (s : Tarjan) : Tarjan :=
  { s with low := Function.update s.low v s.index, index := s.index + 1, stk := v :: s.stk,
           instack := Function.update s.instack v true }

/-- `if (low[u] < low[v]) low[v] = low[u]`. -/
def lower (v u : Key) (s : Tarjan) : Tarjan :=
  if s.low u < s.low v then { s with low := Function.update s.low v (s.low u) } else s

/-- The loop which pops the stack, the given list, down to `v`. -/
def popTo (v : Key) : List Key → Tarjan → Tarjan
  | [], s => { s with fault := true }
  | j :: stk, s =>
      let s := { s with
        stk := stk
        instack := Function.update s.instack j false
        sccList := s.sccList.modify s.sccCount (· ++ [j])
        fault := s.fault || decide (s.sccList.length ≤ s.sccCount) }
      if j = v then s else popTo v stk s

/-- The end of `tarjan` for a root. -/
def close (v : Key) (s : Tarjan) : Tarjan :=
  let s := popTo v s.stk s
  { s with sccCount := s.sccCount + 1, sccList := s.sccList ++ [[]] }

/-- What `tarjan` does for the neighbour `u`, `call` being the recursive call. -/
def visit (call : Key → Tarjan → Option Tarjan) (v : Key) (s : Tarjan) (u : Key) : Option Tarjan :=
  if s.low u = -1 then (call u s).map (lower v u)
  else if s.instack u then some (s.lower v u)
  else some s

section Search

-- the ids which `GetNeighbors` lists
variable (neighbors : Key → List Key)

/-- `none` if the recursion gets deeper than `fuel` calls. -/
def tarjan : Nat → Key → Tarjan → Option Tarjan
  | 0, _, _ => none
  | fuel + 1, v, s =>
      let dfn := s.index
      ((neighbors v).foldlM (visit (tarjan fuel) v) (s.enter v)).map fun s =>
        if s.low v = dfn then s.close v else s

/-- One pass of the loop of `tarjan_algorithm`. -/
def search (fuel : Nat) (s : Tarjan) (i : Key) : Option Tarjan :=
  if s.low i = -1 then tarjan neighbors fuel i s else some s

/-- The nodes in the order of the loop of `tarjan_algorithm`. -/
def nodes (nodeNum : Nat) : List Key := (List.range nodeNum).map fun i : Nat => (i + 1 : Int)

def tarjanAlgorithm (fuel : Nat) (nodeNum : Nat) (s : Tarjan) : Option Tarjan :=
  (nodes nodeNum).foldlM (search neighbors fuel) { s with index := 0, sccCount := 0 }

end Search

end Tarjan

end CuckooGraph
