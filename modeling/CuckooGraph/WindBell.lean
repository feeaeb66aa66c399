import CuckooGraph.Basic
import CuckooGraph.Linked

/-! # Wind-Bell: a matrix of linked lists

An edge is a node of a list in one of the four cells which the two hashes of its
source and the two of its destination select. The nodes of the two builds differ
in a weight, which is the parameter `ω`.
-/

namespace CuckooGraph

open TwoLayer

namespace WindBell

/-- `MAXNUM` of `WindBell.h`. -/
abbrev maxNum : Int := 50000000

abbrev rawseed : List Int := [0, 221]
abbrev colseed : List Int := [0, 13]

/-- `MAX_TCM`. -/
abbrev maxTcm : Nat := 7000

/-- A row and a column. -/
abbrev Place := Nat × Nat

structure Chain (ω : Type) where
  src : Key
  dst : Key
  weight : ω
  pointerChand : Option Addr
  pointerChandRe : Option Addr

def Chain.edge {ω : Type} (n : Chain ω) : Edge := ⟨n.src, n.dst⟩

/-- With `raw = col = 2`. The arrays have `maxTcm` rows and columns, of which the first
    `len` are in use: no other cell is ever read or written. `fault` says that a dead or
    null pointer was followed, or that `min` has found no counter below `maxNum`. -/
structure Chandelier (ω : Type) where
  len : Nat
  counter : Place → Int
  pointerHead : Place → Option Addr
  pointerTail : Place → Option Addr
  heap : Heap (Chain ω)
  fault : Bool

/-- `min`: the index of the first of the smallest values, if there is one below `maxNum`. -/
def minIndex (arr : List Int) : Option Nat :=
  (arr.zipIdx.foldl (fun (s : Int × Option Nat) (x : Int × Nat) =>
    if x.1 < s.1 then (x.1, some x.2) else s) (maxNum, none)).2

/-- `max`: the index of the first of the largest values, if there is one above -1. -/
def maxIndex (arr : List Int) : Option Nat :=
  (arr.zipIdx.foldl (fun (s : Int × Option Nat) (x : Int × Nat) =>
    if x.1 > s.1 then (x.1, some x.2) else s) (-1, none)).2

namespace Chandelier

variable {ω : Type} (E : Env)

/-- What the loops of the constructor leave, in arrays that are large enough. -/
def cleared (len : Nat) : Chandelier ω := ⟨len, fun _ => 0, fun _ => none, fun _ => none, Heap.empty, false⟩

/-- The constructor. `none` if its loops write past the arrays. -/
def new (len : Nat) : Option (Chandelier ω) := if len ≤ maxTcm then some (cleared len) else none

theorem new_inside {len : Nat} (inside : len ≤ maxTcm) : (new len : Option (Chandelier ω)) = some (cleared len) :=
  if_pos inside

theorem new_outside {len : Nat} (outside : maxTcm < len) : (new len : Option (Chandelier ω)) = none :=
  if_neg (Nat.not_le.mpr outside)

def crash (c : Chandelier ω) : Chandelier ω := { c with fault := true }

/-- The cells `[ra[i]][co[j]]` of an edge, by `i * col + j`. -/
def cells (len : Nat) (e : Edge) : List Place :=
  rawseed.flatMap fun i => colseed.map fun j => (E.mmhash e.src i % len, E.mmhash e.dst j % len)

/-- All these cells are in the arrays. -/
theorem cells_inside {len : Nat} (size : 0 < len ∧ len ≤ maxTcm) {e : Edge} {p : Place} (cell : p ∈ cells E len e) :
    p.1 < maxTcm ∧ p.2 < maxTcm := by
  obtain ⟨i, -, row⟩ := List.mem_flatMap.mp cell
  obtain ⟨j, -, rfl⟩ := List.mem_map.mp row
  exact ⟨(Nat.mod_lt _ size.1).trans_le size.2, (Nat.mod_lt _ size.1).trans_le size.2⟩

/-- The counters of the cells of an edge. -/
def cnt (c : Chandelier ω) (e : Edge) : List Int := (cells E c.len e).map c.counter

section Search

/-- Follow a list to the first node of an edge: `some none` at its end, `none` if
    a freed node is reached or the list has more than `fuel` nodes. -/
def walk (heap : Heap (Chain ω)) (e : Edge) : Nat → Option Addr → Option (Option Addr)
  | _, none => some none
  | 0, some _ => none
  | fuel + 1, some a =>
      match heap.get a with
      | none => none
      | some n => if n.edge = e then some (some a) else walk heap e fuel n.pointerChand

/-- Look through the lists of some cells in turn. No list without a loop is
    longer than the heap. -/
def seekIn (c : Chandelier ω) (e : Edge) : List Place → Option (Option (Place × Addr))
  | [] => some none
  | p :: ps =>
      match walk c.heap e c.heap.objects.length (c.pointerHead p) with
      | none => none
      | some (some a) => some (some (p, a))
      | some none => seekIn c e ps

/-- The search of `query_edge` and `delete_edge`: first the cell with the smallest
    counter, then the others. `none` if it does not come to an end. -/
def seek (c : Chandelier ω) (e : Edge) : Option (Option (Place × Addr)) :=
  match minIndex (c.cnt E e) with
  | none => none
  | some minn => c.seekIn e ((cells E c.len e).getD minn (0, 0) :: (cells E c.len e).eraseIdx minn)

end Search

section Splice

/-- Put a node in front of the list of a cell. -/
def linkFront (c : Chandelier ω) (p : Place) (a : Addr) (n : Chain ω) : Chandelier ω :=
  let heap := c.heap.set a { n with pointerChand := c.pointerHead p }
  let c := { c with heap := heap }
  let c :=
    match c.pointerHead p with
    | some b =>
        match c.heap.get b with
        | some m => { c with heap := c.heap.set b { m with pointerChandRe := some a } }
        | none => c.crash
    | none => { c with pointerTail := Function.update c.pointerTail p (some a) }
  { c with pointerHead := Function.update c.pointerHead p (some a),
           counter := Function.update c.counter p (c.counter p + 1) }

/-- Take the last node out of the list of a cell. -/
def evict (c : Chandelier ω) (p : Place) : Chandelier ω × Option (Addr × Chain ω) :=
  match c.pointerTail p with
  | none => (c.crash, none)
  | some t =>
      match c.heap.get t with
      | none => (c.crash, none)
      | some n =>
          let c := { c with pointerTail := Function.update c.pointerTail p n.pointerChandRe }
          let c :=
            match n.pointerChandRe with
            | none => { c with pointerHead := Function.update c.pointerHead p none }
            | some q =>
                match c.heap.get q with
                | some m => { c with heap := c.heap.set q { m with pointerChand := none } }
                | none => c.crash
          ({ c with counter := Function.update c.counter p (c.counter p - 1) },
            (c.heap.get t).map (t, ·))

/-- `insert_new`, with `3 - num` evictions left. The counters are read before the
    node is put in. -/
def insertNew : Nat → Chandelier ω → Addr → Chain ω → Chandelier ω
  | left, c, a, n =>
      let cnt := c.cnt E n.edge
      let cell := fun i => (cells E c.len n.edge).getD i (0, 0)
      match minIndex cnt with
      | none => c.crash
      | some minn =>
          let c := c.linkFront (cell minn) a n
          match maxIndex cnt, left with
          | none, _ => c.crash
          | some _, 0 => c
          | some maxx, left + 1 =>
              if cnt.getD maxx 0 > 10 ∧ cnt.getD minn 0 * 2 < cnt.getD maxx 0 then
                match c.evict (cell maxx) with
                | (c, some (t, n)) => insertNew left c t n
                | (c, none) => c
              else c

end Splice

section Unweighted

/-- `none` where the search does not come to an end. -/
def queryEdge (c : Chandelier Unit) (e : Edge) : Option Bool := (c.seek E e).map Option.isSome

/-- `insert` of a node which the caller has just made. The pointers in it are
    whatever they are. -/
def insert (c : Chandelier Unit) (e : Edge) (next prev : Option Addr) : Chandelier Unit :=
  let n : Chain Unit := ⟨e.src, e.dst, (), next, prev⟩
  let (heap, a) := c.heap.alloc n
  let c := { c with heap := heap }
  match c.seek E e with
  | none => c.crash
  | some (some _) => c
  | some none => insertNew E 3 c a n

/-- Take a node out of the list of a cell, and delete it. -/
def unlink (c : Chandelier Unit) (p : Place) (a : Addr) : Chandelier Unit :=
  match c.heap.get a with
  | none => c.crash
  | some n =>
      let c :=
        if c.pointerHead p = some a then
          { c with pointerHead := Function.update c.pointerHead p n.pointerChand }
        else
          match n.pointerChandRe with
          | none => c.crash
          | some q =>
              match c.heap.get q with
              | some m => { c with heap := c.heap.set q { m with pointerChand := n.pointerChand } }
              | none => c.crash
      let c :=
        match n.pointerChand with
        | some b =>
            match c.heap.get b with
            | some m => { c with heap := c.heap.set b { m with pointerChandRe := some b } }
            | none => c.crash
        | none => { c with pointerTail := Function.update c.pointerTail p n.pointerChandRe }
      { c with counter := Function.update c.counter p (c.counter p - 1), heap := c.heap.free a }

def deleteEdge (c : Chandelier Unit) (e : Edge) : Chandelier Unit × Option Bool :=
  match c.seek E e with
  | none => (c.crash, none)
  | some none => (c, some false)
  | some (some (p, a)) => (c.unlink p a, some true)

end Unweighted

section Weighted

def queryWeight (c : Chandelier UInt32) (e : Edge) : Option UInt32 :=
  (c.seek E e).map fun found =>
    match found.bind fun (_, a) => c.heap.get a with
    | some n => n.weight
    | none => 0

/-- `insert` of the weighted build. `query_edge_ins` adds 1 to the weight of the
    node it finds, and the new node is put in only if the result is 0. -/
def insertWeight (c : Chandelier UInt32) (e : Edge) (next prev : Option Addr) : Chandelier UInt32 :=
  let n : Chain UInt32 := ⟨e.src, e.dst, 1, next, prev⟩
  let (heap, a) := c.heap.alloc n
  let c := { c with heap := heap }
  match c.seek E e with
  | none => c.crash
  | some none => insertNew E 3 c a n
  | some (some (_, b)) =>
      match c.heap.get b with
      | none => c.crash
      | some m =>
          let weight := m.weight + 1
          let c := { c with heap := c.heap.set b { m with weight := weight } }
          if weight = 0 then insertNew E 3 c a n else c

end Weighted

end Chandelier

end WindBell

end CuckooGraph
