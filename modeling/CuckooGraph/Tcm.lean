import CuckooGraph.HashTable
import Mathlib.Data.Finset.Card

/-! # The sketch `TCM`

The weights of the edges are added up in several matrices, each with a hash function
of its own. A query takes the least answer of all matrices.
-/

namespace CuckooGraph

/-- `value[i]` is matrix `i`, row by row. -/
structure Tcm where
  value : Nat → Nat → Int
  mapTable : Nat → HashTable String

namespace Tcm

def INT32_MAX : Int := 2 ^ 31 - 1

/-- What the constructor is called with. `hfunc` has 13 functions, `width * depth` is an `int`. -/
structure Params where
  width : Nat
  depth : Nat
  hashnum : Nat
  usetable : Bool
  tablesize : Nat
  width_pos : 0 < width
  depth_pos : 0 < depth
  hashnum_pos : 0 < hashnum
  hashnum_le : hashnum ≤ 13
  area_lt : width * depth < 2 ^ 31
  table_pos : usetable = true → 0 < tablesize

variable (P : Params) (hfunc : Nat → String → UInt32)

def new : Tcm where
  value := fun _ _ => 0
  mapTable := fun _ => HashTable.init (if P.usetable then P.tablesize else 0)

def hash1 (i : Nat) (v1 : String) : Nat := (hfunc i v1).toNat % P.depth

def hash2 (i : Nat) (v2 : String) : Nat := (hfunc i v2).toNat % P.width

/-- The place of an edge in matrix `i`. -/
def place (i : Nat) (e : String × String) : Nat := hash1 P hfunc i e.1 * P.width + hash2 P hfunc i e.2

def insertRow (v1 v2 : String) (weight : Int) (t : Tcm) (i : Nat) : Tcm where
  mapTable :=
    if P.usetable then
      Function.update t.mapTable i (((t.mapTable i).insert (hfunc i v1).toNat v1).insert (hfunc i v2).toNat v2)
    else t.mapTable
  value :=
    let hash := place P hfunc i (v1, v2)
    Function.update t.value i (Function.update (t.value i) hash (t.value i hash + weight))

def insert (t : Tcm) (v1 v2 : String) (weight : Int) : Tcm :=
  (List.range P.hashnum).foldl (insertRow P hfunc v1 v2 weight) t

/-- All items, one after the other, into a new sketch. -/
def inserts (items : List (String × String × Int)) : Tcm :=
  items.foldl (fun t i => insert P hfunc t i.1 i.2.1 i.2.2) (new P)

def query (t : Tcm) (v1 v2 : String) : Int :=
  (List.range P.hashnum).foldl (fun least i => min (t.value i (place P hfunc i (v1, v2))) least) INT32_MAX

/-- The loop of the node queries: it ends early if nothing can be less. -/
def least (sum : Nat → Int) : List Nat → Int → Int
  | [], m => m
  | i :: is, m =>
      let m := min (sum i) m
      if m = 0 then m else least sum is m

/-- The cells of a row (`type` is 0) or column of matrix `i`, with the values of `j`. -/
def line (i : Nat) (v1 : String) (type : Int) : List (Nat × Nat) :=
  if type = 0 then (List.range P.width).map fun j => (j, hash1 P hfunc i v1 * P.width + j)
  else (List.range P.depth).map fun j => (j, j * P.width + hash2 P hfunc i v1)

def nodequery (t : Tcm) (v1 : String) (type : Int) : Int :=
  least (fun i => ((line P hfunc i v1 type).map fun c => t.value i c.2).sum) (List.range P.hashnum) INT32_MAX

/-- The names are looked up by `j`, not by a hash value. -/
def nodedegreequery (t : Tcm) (v1 : String) (type : Int) : Int :=
  least (fun i => ((line P hfunc i v1 type).map fun c =>
    if t.value i c.2 > 0 then ((t.mapTable i).countIDnums c.1 : Int) else 0).sum) (List.range P.hashnum) INT32_MAX

/-- The local variables `q` and `checked` of `transquery`. -/
structure Search where
  q : List Nat
  checked : Nat → Bool

def Search.visit (s : Search) (j : Nat) : Search :=
  if s.checked j then s else ⟨s.q ++ [j], Function.update s.checked j true⟩

/-- The `j` with a positive value in row `v1`. -/
def positive (t : Tcm) (i v1 : Nat) : List Nat := (List.range P.width).filter fun j => t.value i (v1 * P.width + j) > 0

/-- The loop over `q`, `none` if it takes more than `fuel` passes. -/
def search (t : Tcm) (i dest : Nat) : Nat → Search → Option Bool
  | 0, _ => none
  | fuel + 1, s =>
      match s.q with
      | [] => some false
      | v1 :: q =>
          if t.value i (v1 * P.width + dest) > 0 then some true
          else search t i dest fuel ((positive P t i v1).foldl Search.visit { s with q := q })

/-- One pass of `transquery`. Each of the `width` columns enters the queue at most once. -/
def joins (t : Tcm) (i : Nat) (v1 v2 : String) : Option Bool :=
  let src := hash1 P hfunc i v1
  let dest := hash2 P hfunc i v2
  if t.value i (src * P.width + dest) > 0 then some true
  else search P t i dest (P.width + 1) ⟨[src], Function.update (fun _ => false) src true⟩

def transquery (t : Tcm) (v1 v2 : String) : Option Bool := (List.range P.hashnum).allM fun i => joins P hfunc t i v1 v2

end Tcm

end CuckooGraph
