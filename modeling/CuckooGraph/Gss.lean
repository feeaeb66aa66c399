import CuckooGraph.HashTable
import Mathlib.Data.BitVec
import Mathlib.Data.List.Sort

/-! # The graph stream sketch `GSS`

A node is compressed to a row number `h` and a fingerprint `g`. An edge goes to one
of `p` baskets, each in a row of its source and a column of its destination: the
`r` rows of a node start at `h` and differ by a number sequence which starts at `g`,
so that `h` can be computed from a row and its place in the sequence. What finds no
room is linked to a list of its source in `buffer`.
-/

namespace CuckooGraph.Gss

def prime : Nat := 739
def biggerP : Nat := 1048576
def timer : Nat := 5
def roomnum : Nat := 2

/-- One step of the number sequences. -/
def next (x : Nat) : Nat := (x * timer + prime) % biggerP

/-- What the constructor is called with. A place in the sequence has 4 bits in
    `idx`, a fingerprint is a nonzero `unsigned short`, the number of a node and that
    of a basket are `int`s, and a hash value is taken modulo `tablesize`. -/
structure Params where
  w : Nat
  r : Nat
  p : Nat
  s : Nat
  f : Nat
  useT : Bool
  tablesize : Nat
  w_pos : 0 < w
  r_pos : 0 < r
  r_le : r ≤ 16
  s_le : s ≤ roomnum
  f_pos : 0 < f
  f_le : f ≤ 16
  area_lt : w * w < 2 ^ 31
  nodes_lt : w * 2 ^ f ≤ 2 ^ 31
  table_pos : useT = true → 0 < tablesize

/-- The rooms of a basket; the places of room `j` are byte `j` of `idx`. -/
structure Basket where
  src : Nat → Nat
  dst : Nat → Nat
  weight : Nat → BitVec 16
  idx : Nat

/-- A compressed node. -/
structure Mapnode where
  h : Nat
  g : Nat
  deriving DecidableEq

structure Linknode where
  key : Nat
  weight : BitVec 16
  deriving DecidableEq

/-- The list of a node: its first element, which is for the node itself, and the rest. -/
structure Chain where
  head : Linknode
  next : List Linknode
  deriving DecidableEq

end Gss

/-- `value` is the array of `w * w` baskets, `index` a map from the nodes to the places in `buffer`. -/
structure Gss where
  mapTable : HashTable String
  value : Nat → Gss.Basket
  buffer : List Gss.Chain
  index : List (Nat × Nat)
  n : Nat
  edge_num : Nat

namespace Gss

variable (P : Params)

/-- The constructor. -/
def new : Gss where
  mapTable := HashTable.init (if P.useT then P.tablesize else 0)
  value := fun _ => ⟨fun _ => 0, fun _ => 0, fun _ => 0, 0⟩
  buffer := []
  index := []
  n := 0
  edge_num := 0

/-- `g` and `h` of a hash value. -/
def node (hash : UInt32) : Mapnode :=
  let tmp := 2 ^ P.f - 1
  let g := hash.toNat &&& tmp
  { h := (hash.toNat >>> P.f) % P.w, g := if g = 0 then g + 1 else g }

/-- `k1` and `k2`. -/
def Mapnode.key (a : Mapnode) : Nat := (a.h <<< P.f) + a.g

/-- `tmp1[i]` and `tmp2[i]`. -/
def tmp (g : Nat) : Nat → Nat
  | 0 => g
  | i + 1 => next (tmp g i)

/-- The places of room `j`, and those of the source and of the destination alone. -/
def Basket.places (b : Basket) (j : Nat) : Nat := (b.idx >>> (j <<< 3)) &&& ((1 <<< 8) - 1)

def Basket.srcPlace (b : Basket) (j : Nat) : Nat := (b.idx >>> (j <<< 3)) &&& ((1 <<< 4) - 1)

def Basket.dstPlace (b : Basket) (j : Nat) : Nat := (b.idx >>> ((j <<< 3) + 4)) &&& ((1 <<< 4) - 1)

/-- A candidate of an edge: a basket and the places of the source and of the destination. -/
structure Candidate where
  pos : Nat
  index1 : Nat
  index2 : Nat

def Candidate.places (q : Candidate) : Nat := q.index1 ||| (q.index2 <<< 4)

/-- The basket at two places of the sequences. -/
def candidate (a b : Mapnode) (index1 index2 : Nat) : Candidate :=
  let p1 := (a.h + tmp a.g index1) % P.w
  let p2 := (b.h + tmp b.g index2) % P.w
  ⟨p1 * P.w + p2, index1, index2⟩

/-- The candidates, in the order in which the loops over `i` come to them. -/
def candidates (a b : Mapnode) : Nat → Nat → List Candidate
  | 0, _ => []
  | i + 1, key =>
      let key := next key
      let index := key % (P.r * P.r)
      candidate P a b (index / P.r) (index % P.r) :: candidates a b i key

def Basket.holds (b : Basket) (q : Candidate) (g1 g2 j : Nat) : Bool :=
  b.places j = q.places ∧ b.src j = g1 ∧ b.dst j = g2

/-- `weight += w` on a `short`. -/
def plus (v : BitVec 16) (weight : Int) : BitVec 16 := BitVec.ofInt 16 (v.toInt + weight)

/-- The loop of `insert` over the rooms of a basket. -/
def Basket.insert (b : Basket) (q : Candidate) (g1 g2 : Nat) (weight : Int) : List Nat → Option Basket
  | [] => none
  | j :: js =>
      if b.holds q g1 g2 j then some { b with weight := Function.update b.weight j (plus (b.weight j) weight) }
      else if b.src j = 0 then
        some {
          idx := b.idx ||| (q.places <<< (j <<< 3))
          src := Function.update b.src j g1
          dst := Function.update b.dst j g2
          weight := Function.update b.weight j (BitVec.ofInt 16 weight) }
      else b.insert q g1 g2 weight js

/-- The loop of `insert` over the candidates. -/
def insertMatrix (value : Nat → Basket) (g1 g2 : Nat) (weight : Int) : List Candidate → Option (Nat → Basket)
  | [] => none
  | q :: qs =>
      match (value q.pos).insert q g1 g2 weight (List.range P.s) with
      | some b => some (Function.update value q.pos b)
      | none => insertMatrix value g1 g2 weight qs

/-- The rest of a list on the way to `k2`; the flag says that a node is linked to its end. -/
def linkNext (k2 : Nat) (weight : Int) : List Linknode → List Linknode × Bool
  | [] => ([⟨k2, BitVec.ofInt 16 weight⟩], true)
  | node :: rest =>
      if node.key = k2 then ({ node with weight := plus node.weight weight } :: rest, false)
      else (node :: (linkNext k2 weight rest).1, (linkNext k2 weight rest).2)

/-- The walk of `insert` along a list of `buffer`. -/
def Chain.link (c : Chain) (k2 : Nat) (weight : Int) : Chain × Bool :=
  if c.head.key = k2 then ({ c with head.weight := plus c.head.weight weight }, false)
  else ({ c with next := (linkNext k2 weight c.next).1 }, (linkNext k2 weight c.next).2)

/-- The list of a node which had none. -/
def Chain.new (k1 k2 : Nat) (weight : Int) : Chain × Bool :=
  if k1 ≠ k2 then (⟨⟨k1, 0⟩, [⟨k2, BitVec.ofInt 16 weight⟩]⟩, true)
  else (⟨⟨k1, plus 0 weight⟩, []⟩, false)

def insertBuffer (t : Gss) (k1 k2 : Nat) (weight : Int) : Gss :=
  match t.index.lookup k1 with
  | some tag =>
      match t.buffer[tag]? with
      | some chain =>
          let linked := chain.link k2 weight
          { t with buffer := t.buffer.set tag linked.1, edge_num := t.edge_num + linked.2.toNat }
      | none => t
  | none =>
      let linked := Chain.new k1 k2 weight
      { t with
        index := t.index.orderedInsert (fun e e' => e.1 ≤ e'.1) (k1, t.n)
        n := t.n + 1
        buffer := t.buffer ++ [linked.1]
        edge_num := t.edge_num + linked.2.toNat }

/-- The names of the nodes are kept if `useT` is set. -/
def register (t : Gss) (k1 k2 : Nat) (s1 s2 : String) : Gss :=
  if P.useT then { t with mapTable := (t.mapTable.insert k1 s1).insert k2 s2 } else t

/-- An edge goes into a basket, or to a list in `buffer`. -/
def place (t : Gss) (a b : Mapnode) (weight : Int) : Gss :=
  match insertMatrix P t.value a.g b.g weight (candidates P a b P.p (a.g + b.g)) with
  | some value => { t with value := value }
  | none => t.insertBuffer (a.key P) (b.key P) weight

variable (hash : String → UInt32)

def insert (t : Gss) (s1 s2 : String) (weight : Int) : Gss :=
  let a := node P (hash s1)
  let b := node P (hash s2)
  (t.register P (a.key P) (b.key P) s1 s2).place P a b weight

/-- The room of `edgeQuery` in a basket, and in the candidates. -/
def findMatrix (value : Nat → Basket) (g1 g2 : Nat) : List Candidate → Option (BitVec 16)
  | [] => none
  | q :: qs =>
      match (List.range P.s).find? ((value q.pos).holds q g1 g2) with
      | some j => some ((value q.pos).weight j)
      | none => findMatrix value g1 g2 qs

def Chain.nodes (c : Chain) : List Linknode := c.head :: c.next

/-- The list of a node in `buffer`. -/
def chain (t : Gss) (k1 : Nat) : Option Chain := (t.index.lookup k1).bind fun tag => t.buffer[tag]?

/-- The weight which `edgeQuery` returns, once the nodes are known. -/
def edgeWeight (t : Gss) (a b : Mapnode) : BitVec 16 :=
  match findMatrix P t.value a.g b.g (candidates P a b P.p (a.g + b.g)) with
  | some v => v
  | none =>
      match t.chain (a.key P) with
      | some c => ((c.nodes.find? fun node => node.key = b.key P).map Linknode.weight).getD 0
      | none => 0

def edgeQuery (t : Gss) (s1 s2 : String) : Int := (edgeWeight P t (node P (hash s1)) (node P (hash s2))).toInt

/-- The `type` of a node query: 0 for the edges out of a node, 1 for those into it. -/
inductive Side
  | out
  | into
  deriving DecidableEq

namespace Side

/-- The fingerprint and the place of the node asked for, and those of the other node. -/
def near : Side → Basket → Nat → Nat
  | out, b, j => b.src j
  | into, b, j => b.dst j

def nearPlace : Side → Basket → Nat → Nat
  | out, b, j => b.srcPlace j
  | into, b, j => b.dstPlace j

def far : Side → Basket → Nat → Nat
  | out, b, j => b.dst j
  | into, b, j => b.src j

def farPlace : Side → Basket → Nat → Nat
  | out, b, j => b.dstPlace j
  | into, b, j => b.srcPlace j

/-- A basket in the row or column `p1`. -/
def pos : Side → Nat → Nat → Nat
  | out, p1, k => p1 * P.w + k
  | into, p1, k => p1 + k * P.w

end Side

/-- A room as the node queries come to it: the column (or row) of the other node, the basket and the room in it. -/
structure Room where
  k : Nat
  pos : Nat
  j : Nat
  deriving DecidableEq

/-- The rooms which the loops of a node query over `i`, `k` and `j` stop at. -/
def rooms (side : Side) (value : Nat → Basket) (a : Mapnode) : List Room :=
  (List.range P.r).flatMap fun i =>
    (List.range P.w).flatMap fun k =>
      let pos := side.pos P ((a.h + tmp a.g i) % P.w) k
      ((List.range P.s).filter fun j => side.nearPlace (value pos) j = i ∧ side.near (value pos) j = a.g).map
        fun j => ⟨k, pos, j⟩

/-- `while (tmp_h < shifter) tmp_h += w;`, which takes no more than `shifter` passes. -/
def climb (shifter : Nat) : Nat → Nat → Nat
  | 0, h => h
  | fuel + 1, h => if h < shifter then climb shifter fuel (h + P.w) else h

/-- The node with fingerprint `g` whose row (or column) at a place of the sequence is `k`. -/
def original (g place k : Nat) : Mapnode :=
  let shifter := next^[place] g
  ⟨climb P shifter shifter k - shifter, g⟩

/-- The other node of an edge. -/
def farNode (side : Side) (value : Nat → Basket) (room : Room) : Mapnode :=
  original P (side.far (value room.pos) room.j) (side.farPlace (value room.pos) room.j) room.k

/-- The list in `buffer` of an entry of `index`. -/
def chainAt (t : Gss) (e : Nat × Nat) : List Chain := t.buffer[e.2]?.toList

def nodeSuccessorQuery (t : Gss) (s1 : String) : List String :=
  let a := node P (hash s1)
  let k1 := a.key P
  (rooms P .out t.value a).flatMap (fun room => t.mapTable.getID ((farNode P .out t.value room).key P)) ++
    match t.chain k1 with
    | some c =>
        (if c.head.weight ≠ 0 then t.mapTable.getID k1 else []) ++ c.next.flatMap fun node => t.mapTable.getID node.key
    | none => []

def nodePrecursorQuery (t : Gss) (s1 : String) : List String :=
  let a := node P (hash s1)
  let k1 := a.key P
  (rooms P .into t.value a).flatMap (fun room => t.mapTable.getID ((farNode P .into t.value room).key P)) ++
    ((match t.chain k1 with
    | some c => if c.head.weight ≠ 0 then t.mapTable.getID k1 else []
    | none => []) ++
    t.index.flatMap fun e => (t.chainAt e).flatMap fun c =>
      if c.next.any fun node => node.key = k1 then t.mapTable.getID e.1 else [])

/-- The weights `nodeValueQuery` comes to: those of the rooms, and those in `buffer`. -/
def nodeWeights (t : Gss) (a : Mapnode) (type : Side) : List Int :=
  let k1 := a.key P
  (rooms P type t.value a).map (fun room => ((t.value room.pos).weight room.j).toInt) ++
    match type with
    | .out => (t.chain k1).elim [] fun c => c.nodes.map fun node => node.weight.toInt
    | .into =>
        ((t.chain k1).elim [] fun c => [c.head.weight.toInt]) ++
        t.index.flatMap fun e => (t.chainAt e).flatMap fun c =>
          (c.next.filter fun node => node.key = k1).map fun node => node.weight.toInt

/-- `weight += w`, `none` if the result is no `int`. -/
def addWeight (weight w : Int) : Option Int := if -2 ^ 31 ≤ weight + w ∧ weight + w < 2 ^ 31 then some (weight + w) else none

def nodeValueQuery (t : Gss) (s1 : String) (type : Side) : Option Int :=
  (nodeWeights P t (node P (hash s1)) type).foldlM addWeight 0

/-- For the edges out of a node, the test of the head is followed by a semicolon:
    its names are counted in any case. -/
def nodeDegreeQuery (t : Gss) (s1 : String) (type : Side) : Nat :=
  let a := node P (hash s1)
  let k1 := a.key P
  ((rooms P type t.value a).map fun room => t.mapTable.countIDnums ((farNode P type t.value room).key P)).sum +
    match type with
    | .out =>
        match t.chain k1 with
        | some c => t.mapTable.countIDnums k1 + (c.next.map fun node => t.mapTable.countIDnums node.key).sum
        | none => 0
    | .into =>
        (match t.chain k1 with
        | some c => if c.head.weight ≠ 0 then t.mapTable.countIDnums k1 else 0
        | none => 0) +
        (t.index.map fun e => ((t.chainAt e).map fun c =>
          if c.next.any fun node => node.key = k1 then t.mapTable.countIDnums c.head.key else 0).sum).sum

/-- The queue of `query` behind the node just taken, and the keys in `checked`. -/
structure Search where
  q : List Mapnode
  checked : Nat → Bool

def Search.visit (s : Search) (e : Mapnode) (val : Nat) : Search :=
  if s.checked val then s else ⟨s.q ++ [e], Function.update s.checked val true⟩

/-- Is there an edge to `b` in the baskets? All places are tried. -/
def direct (value : Nat → Basket) (a b : Mapnode) : Bool :=
  (List.range P.r).any fun i1 => (List.range P.r).any fun i2 =>
    (List.range P.s).any fun i3 => (value (candidate P a b i1 i2).pos).holds (candidate P a b i1 i2) a.g b.g i3

/-- The node of a key in `buffer`. -/
def unpack (val : Nat) : Mapnode := ⟨val >>> P.f, val % 2 ^ P.f⟩

/-- The walk along the list of the node; `none` if it comes to `b`. -/
def walkChain (k1 : Nat) (b : Mapnode) (s : Search) (nodes : List Linknode) : Option Search :=
  nodes.foldlM (fun s node =>
    if node.key = k1 then some s
    else if unpack P node.key = b then none
    else some (s.visit (unpack P node.key) node.key)) s

/-- A pass of the loop with `e` at the front; `none` if `b` is found. -/
def searchPass (t : Gss) (b e : Mapnode) (s : Search) : Option Search :=
  if direct P t.value e b then none
  else
    (walkChain P (e.key P) b s ((t.chain (e.key P)).elim [] Chain.nodes)).map fun s =>
      (rooms P .out t.value e).foldl (fun s room =>
        s.visit (farNode P .out t.value room) ((farNode P .out t.value room).key P)) s

/-- The loop, `none` if it takes more than `fuel` passes. -/
def search (t : Gss) (b : Mapnode) : Nat → Search → Option Bool
  | 0, _ => none
  | fuel + 1, s =>
      match s.q with
      | [] => some false
      | e :: rest =>
          match searchPass P t b e { s with q := rest } with
          | none => some true
          | some s => search t b fuel s

/-- Each of the `w * 2 ^ f` nodes enters the queue at most once. -/
def query (t : Gss) (s1 s2 : String) : Option Bool :=
  let a := node P (hash s1)
  search P t (node P (hash s2)) (P.w * 2 ^ P.f + 1) ⟨[a], Function.update (fun _ => false) (a.key P) true⟩

end Gss

end CuckooGraph
