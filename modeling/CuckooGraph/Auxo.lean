import CuckooGraph.Bidirectional
import CuckooGraph.Gss
import CuckooGraph.Packed

/-! # The graph stream sketch `Auxo`

Nodes are compressed as in `GSS`, and an edge has `p` places in a matrix. When all of
them are taken, it goes down a binary tree of matrices: on the way, the lowest bits of
the fingerprints of its destination and its source are used up in turns, so that a
matrix keeps only what is left of them. The fields of a matrix are packed.
-/

namespace CuckooGraph.Auxo

open Gss (Mapnode next tmp)

/-- What the constructor is called with. `halfR` is the number of bits for a place in
    a number sequence, half of `rfnum`; for a sequence of one number the constructor
    divides by 0. As `fvalue` has `f + 1` masks, there has to be one for `rfnum`. -/
structure Params where
  w : Nat
  r : Nat
  p : Nat
  f : Nat
  halfR : Nat
  w_pos : 0 < w
  two_le : 2 ≤ r
  p_pos : 0 < p
  f_pos : 0 < f
  f_le : f ≤ 30
  halfR_eq : halfR = Nat.clog 2 r
  rfnum_le : 2 * halfR ≤ f
  area_lt : w * w < 2 ^ 31

namespace Params

variable (P : Params)

theorem r_pos : 0 < P.r := Nat.zero_lt_of_lt P.two_le

theorem halfR_pos : 0 < P.halfR := P.halfR_eq ▸ Nat.clog_pos Nat.one_lt_two P.two_le

theorem r_le : P.r ≤ 2 ^ P.halfR := P.halfR_eq ▸ Nat.le_pow_clog Nat.one_lt_two P.r

end Params

/-- A matrix. -/
structure Gbasket where
  srcFig : Nat → Nat
  dstFig : Nat → Nat
  idx : Nat → Nat
  weight : Nat → BitVec 16

/-- A pointer to a node of the tree. -/
inductive BasketNode where
  | null
  | node (value : Gbasket) (next0 next1 : BasketNode)

/-- A place of an edge. -/
structure Candidate where
  pos : Nat
  index1 : Nat
  index2 : Nat

/-- The first step of `while(mainBasketNow)` from a level to the next: which way to go,
    and what is left of the fingerprints. -/
def turn (level srcFig dstFig : Nat) : Bool × Nat × Nat :=
  if level &&& 1 = 1 then (srcFig.testBit 0, srcFig >>> 1, dstFig) else (dstFig.testBit 0, srcFig, dstFig >>> 1)

def BasketNode.isNull : BasketNode → Bool
  | .null => true
  | .node _ _ _ => false

variable (P : Params)

def rfnum : Nat := 2 * P.halfR

/-- `g` and `h` of a hash value. -/
def node (hash : UInt64) : Mapnode :=
  let g := hash.toNat &&& (2 ^ P.f - 1)
  { h := (hash.toNat >>> P.f) % P.w, g := if g = 0 then g + 1 else g }

/-- `k1` and `k2`. -/
def key (a : Mapnode) : Nat := (a.h <<< P.f) + a.g

def candidate (a b : Mapnode) (key : Nat) : Candidate :=
  let index := key % (P.r * P.r)
  let p1 := (a.h + tmp a.g (index / P.r)) % P.w
  let p2 := (b.h + tmp b.g (index % P.r)) % P.w
  ⟨p1 * P.w + p2, index / P.r, index % P.r⟩

def candidates (a b : Mapnode) : List Candidate :=
  (List.range P.p).map fun i => candidate P a b (tmp (a.g + b.g) i)

def Candidate.places (q : Candidate) : Nat := (q.index1 <<< P.halfR) ||| q.index2

def srcFigSize (level : Nat) : Nat := P.f - level >>> 1

def dstFigSize (level : Nat) : Nat := P.f - level >>> 1 - (level &&& 1)

namespace Gbasket

def src (level : Nat) (value : Gbasket) (pos : Nat) : Nat := Packed.get (srcFigSize P level) value.srcFig pos

def dst (level : Nat) (value : Gbasket) (pos : Nat) : Nat := Packed.get (dstFigSize P level) value.dstFig pos

def places (value : Gbasket) (pos : Nat) : Nat := Packed.get (rfnum P) value.idx pos

/-- The room has the fingerprints and the places of an edge. -/
def holds (level : Nat) (value : Gbasket) (srcFig dstFig : Nat) (q : Candidate) : Bool :=
  value.src P level q.pos = srcFig ∧ value.dst P level q.pos = dstFig ∧ value.places P q.pos = q.places P

/-- Write an edge into an empty room. -/
def write (level : Nat) (value : Gbasket) (srcFig dstFig : Nat) (weight : Int) (q : Candidate) : Gbasket where
  srcFig := Packed.put (srcFigSize P level) value.srcFig q.pos srcFig
  dstFig := Packed.put (dstFigSize P level) value.dstFig q.pos dstFig
  idx := Packed.put (rfnum P) value.idx q.pos (q.places P)
  weight := Function.update value.weight q.pos (BitVec.ofInt 16 weight)

/-- `weight[pos] += weight` on an `unsigned short`. -/
def bump (value : Gbasket) (weight : Int) (q : Candidate) : Gbasket :=
  { value with
    weight := Function.update value.weight q.pos (BitVec.ofInt 16 (((value.weight q.pos).toNat : Int) + weight)) }

end Gbasket

/-- The size 0 has no entry in `fper`. -/
def initialGbasket (fsize1 fsize2 : Nat) : Option Gbasket :=
  if fsize1 = 0 ∨ fsize2 = 0 then none else some ⟨fun _ => 0, fun _ => 0, fun _ => 0, fun _ => 0⟩

/-- The constructor. -/
def mainTree : BasketNode := .node ⟨fun _ => 0, fun _ => 0, fun _ => 0, fun _ => 0⟩ .null .null

section Insert

/-- The loop `while(mainBasketNow)`, which ends at the first matrix with a change. -/
def descend (change : Nat → Nat → Nat → Gbasket → Option Gbasket) : BasketNode → Nat → Nat → Nat → Option BasketNode
  | .null, _, _, _ => none
  | .node value next0 next1, level, srcFig, dstFig =>
      match change level srcFig dstFig value with
      | some value => some (.node value next0 next1)
      | none =>
          let (way, srcFig, dstFig) := turn level srcFig dstFig
          if way then (descend change next1 (level + 1) srcFig dstFig).map (.node value next0)
          else (descend change next0 (level + 1) srcFig dstFig).map (.node value · next1)

/-- Add the weight in the room of the edge. -/
def increase (qs : List Candidate) (weight : Int) (level srcFig dstFig : Nat) (value : Gbasket) : Option Gbasket :=
  (qs.find? fun q => value.weight q.pos ≠ 0 && value.holds P level srcFig dstFig q).map (value.bump weight)

/-- Write the edge into the first empty room, which is that of `emptyNum` in `targetBasket`. -/
def occupy (qs : List Candidate) (g1 g2 : Nat) (weight : Int) (level : Nat) (value : Gbasket) : Option Gbasket :=
  (qs.find? fun q => value.weight q.pos = 0).map
    (value.write P level (g1 >>> (P.f - srcFigSize P level)) (g2 >>> (P.f - dstFigSize P level)) weight)

/-- `MatrixAppend` to the last node on the way, and the edge into one of the two new
    matrices. The flag is `inserted`. -/
def append (qs : List Candidate) (g1 g2 : Nat) (weight : Int) : BasketNode → Nat → Nat → Nat → Option (BasketNode × Bool)
  | .null, _, _, _ => none
  | .node value next0 next1, level, srcFig, dstFig =>
      let (way, srcFig, dstFig) := turn level srcFig dstFig
      if (if way then next1 else next0).isNull then
        (initialGbasket (srcFigSize P (level + 1)) (dstFigSize P (level + 1))).map fun empty =>
          let target := (turn level (g1 >>> (P.f - srcFigSize P level)) (g2 >>> (P.f - dstFigSize P level))).1
          match qs.find? fun q => empty.weight q.pos = 0 with
          | none => (.node value (.node empty .null .null) (.node empty .null .null), false)
          | some q =>
              let full := empty.write P (level + 1) srcFig dstFig weight q
              (if target then .node value (.node empty .null .null) (.node full .null .null)
                else .node value (.node full .null .null) (.node empty .null .null), true)
      else if way then (append qs g1 g2 weight next1 (level + 1) srcFig dstFig).map fun t => (.node value next0 t.1, t.2)
      else (append qs g1 g2 weight next0 (level + 1) srcFig dstFig).map fun t => (.node value t.1 next1, t.2)

/-- What `insert` does with the compressed nodes. `none` if the fingerprints are used up. -/
def place (t : BasketNode) (a b : Mapnode) (weight : Int) : Option (BasketNode × Bool) :=
  let qs := candidates P a b
  match descend (increase P qs weight) t 0 a.g b.g with
  | some t => some (t, true)
  | none =>
      match descend (fun level _ _ => occupy P qs a.g b.g weight level) t 0 a.g b.g with
      | some t => some (t, true)
      | none => append P qs a.g b.g weight t 0 a.g b.g

def insert (hash : String → UInt64) (t : BasketNode) (s1 s2 : String) (weight : Int) : Option (BasketNode × Bool) :=
  place P t (node P (hash s1)) (node P (hash s2)) weight

end Insert

section EdgeQuery

/-- The first room with the fingerprints and the places of an edge. -/
def seek (qs : List Candidate) : BasketNode → Nat → Nat → Nat → Option (BitVec 16)
  | .null, _, _, _ => none
  | .node value next0 next1, level, srcFig, dstFig =>
      match qs.find? (value.holds P level srcFig dstFig) with
      | some q => some (value.weight q.pos)
      | none =>
          let (way, srcFig, dstFig) := turn level srcFig dstFig
          if way then seek qs next1 (level + 1) srcFig dstFig else seek qs next0 (level + 1) srcFig dstFig

def edgeQuery (hash : String → UInt64) (t : BasketNode) (s1 s2 : String) : Int :=
  let a := node P (hash s1)
  let b := node P (hash s2)
  (((seek P (candidates P a b) t 0 a.g b.g).map BitVec.toNat).getD 0 : Nat)

end EdgeQuery

section NodeQueries

/-- Row or column `i` of a node. -/
def poses (a : Mapnode) (i : Nat) : Nat := (a.h + tmp a.g i) % P.w

/-- A room which a node query passes; `k` counts along the row or column. -/
structure Room where
  pos : Nat
  k : Nat

variable (type : Bool)

/-- The fingerprint in a room on the side of the node, the one on the other side, and their places. -/
def near (level : Nat) (value : Gbasket) (pos : Nat) : Nat := if type then value.dst P level pos else value.src P level pos

def far (level : Nat) (value : Gbasket) (pos : Nat) : Nat := if type then value.src P level pos else value.dst P level pos

def nearPlace (idxNow : Nat) : Nat := if type then idxNow &&& (2 ^ P.halfR - 1) else idxNow >>> P.halfR

def farPlace (idxNow : Nat) : Nat := if type then idxNow >>> P.halfR else idxNow &&& (2 ^ P.halfR - 1)

def cell (p1 k : Nat) : Nat := if type then p1 + k * P.w else p1 * P.w + k

/-- The rooms which the loops over `i` and `k` stop at. -/
def rooms (a : Mapnode) (level g1 : Nat) (value : Gbasket) : List Room :=
  (List.range P.r).flatMap fun i =>
    ((List.range P.w).filter fun k =>
      near P type level value (cell P type (poses P a i) k) = g1 ∧
        nearPlace P type (value.places P (cell P type (poses P a i) k)) = i).map
      fun k => ⟨cell P type (poses P a i) k, k⟩

/-- The level uses up a bit of the node. -/
def chooses (level : Nat) : Bool := (level &&& 1 = 1) != type

/-- `a` is only there for its rows. -/
def getNodeValue (a : Mapnode) : BasketNode → Nat → Nat → BitVec 32
  | .null, _, _ => 0
  | .node value next0 next1, level, g1 =>
      ((rooms P type a level g1 value).map fun room => (value.weight room.pos).setWidth 32).sum +
        if chooses type level then
          if g1.testBit 0 then getNodeValue a next1 (level + 1) (g1 >>> 1) else getNodeValue a next0 (level + 1) (g1 >>> 1)
        else getNodeValue a next0 (level + 1) g1 + getNodeValue a next1 (level + 1) g1

/-- The result is an `int`. -/
def nodeValueQuery (hash : String → UInt64) (t : BasketNode) (s1 : String) : Int :=
  let a := node P (hash s1)
  (getNodeValue P type a t 0 a.g).toInt

/-- The loop of `calHash`. -/
def bisect (shifter k : Nat) : Nat → Nat → Nat → Nat
  | 0, left, _ => left
  | fuel + 1, left, right =>
      if left < right then
        let mid := (left + right) >>> 1
        if k + P.w * mid < shifter then bisect shifter k fuel (mid + 1) right else bisect shifter k fuel left mid
      else left

/-- With fuel for all passes. -/
def calHash (tmp_g tmp_s k : Nat) : Nat :=
  let shifter := tmp tmp_g tmp_s
  let right := shifter / P.w + 1
  k + P.w * bisect P shifter k right 0 right - shifter

/-- What is pushed for a room. -/
def neighbor (level : Nat) (value : Gbasket) (pre preLen : Nat) (room : Room) : Nat :=
  let figNow := (far P type level value room.pos <<< preLen) ||| pre
  let originalH := calHash P figNow (farPlace P type (value.places P room.pos)) room.k
  (originalH <<< P.f) ||| figNow

/-- `neis`. Empty rooms are not passed over. -/
def sucessorQuery (a : Mapnode) : BasketNode → Nat → Nat → Nat → Nat → List Nat
  | .null, _, _, _, _ => []
  | .node value next0 next1, level, g1, pre, preLen =>
      (rooms P type a level g1 value).map (neighbor P type level value pre preLen) ++
        if chooses type level then
          if g1.testBit 0 then sucessorQuery a next1 (level + 1) (g1 >>> 1) pre preLen
          else sucessorQuery a next0 (level + 1) (g1 >>> 1) pre preLen
        else sucessorQuery a next0 (level + 1) g1 pre (preLen + 1) ++
          sucessorQuery a next1 (level + 1) g1 (pre ||| (1 <<< preLen)) (preLen + 1)

end NodeQueries

section ReachQuery

/-- `h` and `g` of `neiNow`. -/
def unpack (neiNow : Nat) : Mapnode := ⟨neiNow >>> P.f, neiNow &&& (2 ^ P.f - 1)⟩

/-- The neighbours of a node, and those before it for the type 1. -/
def neis (t : BasketNode) (type : Bool) (neiNow : Nat) : List Nat :=
  sucessorQuery P type (unpack P neiNow) t 0 (unpack P neiNow).g 0 0

/-- The loop, which pushes the neighbours of a node of one side and of one of the other in
    turns; `none` if the fuel does not suffice. -/
def reachQuery (hash : String → UInt64) (t : BasketNode) (s1 s2 : String) (fuel : Nat) : Option Bool :=
  if s1 = s2 then some true
  else
    let k1 := key P (node P (hash s1))
    let k2 := key P (node P (hash s2))
    Bidirectional.meet (neis P t false) (neis P t true) fuel [k1] [k1] [k2] [k2]

end ReachQuery

end CuckooGraph.Auxo
