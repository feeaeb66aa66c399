import CuckooGraph.Table.Compress
import CuckooGraph.Table.Overwrite
import CuckooGraph.Table.Heap

/-! # The data model

The unweighted and the weighted build store a graph in the same way: a source
has a `bSlot`, whose destinations are written inline or kept in up to three
S-CHTs, and the `bSlot`s are kept in up to three L-CHTs. They differ in what a
cell of an S-CHT holds, which is the parameter `α` throughout.

`new` and `delete` of S-CHTs act on a heap, since a `bSlot` is copied with its
pointers. L-CHTs have one owner each and are values.
-/

namespace CuckooGraph

open TwoLayer

/-- `key_type`. No arithmetic is done on ids; the hash is a parameter. -/
abbrev Key := Int

abbrev bup : Nat := 8
abbrev kicktimes : Nat := 500
abbrev u1 : Nat := 4
abbrev u2 : Nat := 2
abbrev us1 : Int := 0
abbrev us2 : Int := 221
abbrev bl1 : Nat := 4
abbrev bl2 : Nat := 2
abbrev sbl : Nat := 128
abbrev bbl : Nat := 128
abbrev minc2 : Nat := 4
abbrev bminc2 : Nat := 4
abbrev blist : Int := 33

/-- What the program takes from outside: the values of `mmhash(key, seed)`, and
    the value of the n-th call of `rand()`. -/
structure Env where
  mmhash : Key → Int → Nat
  rand : Nat → Nat

/-- An environment in which all keys collide. -/
def colliding : Env := ⟨fun _ _ => 0, fun _ => 0⟩

structure Edge where
  src : Key
  dst : Key
  deriving DecidableEq, Repr

/-- What a cell holds in one of the two builds. `checked` says that
    `Bucket::insert` looks for the key before it looks for a free cell, `lt` is
    the number of destinations a `bSlot` holds inline. -/
class Entry (α : Type) where
  dst : α → Key
  zero : α
  checked : Bool
  lt : Nat

/-- A cleared cell has key 0, and there is a cell inline. -/
class LawfulEntry (α : Type) [Entry α] : Prop where
  dst_zero : Entry.dst (Entry.zero : α) = 0
  lt_pos : 0 < Entry.lt α

/-- A source with an entry for it: what is inserted, and an element of
    `sblacklist`. -/
structure Arc (α : Type) where
  src : Key
  item : α
  deriving DecidableEq

/-- An S-CHT. Every S-CHT is built with the seeds `us1` and `us2`. -/
abbrev Cuckoo (α : Type) := Table bup α

/-- The S-CHTs of one graph, the S denylist, how often `rand()` was called, and
    whether an assertion has failed or a dead or null pointer was followed. -/
structure Memory (α : Type) where
  heap : Heap (Cuckoo α)
  sblacklist : List (Arc α)
  rands : Nat
  fault : Bool

/-- The three words `slot[3]` of a `bSlot`: destinations written inline, `pt` of
    them, or (`pt = -1`) pointers to S-CHTs. -/
inductive Body (α : Type) where
  | inline (pt : Nat) (cells : List α)
  | chts (slot : Three Addr)
  deriving DecidableEq

structure BSlot (α : Type) where
  src : Key
  body : Body α
  deriving DecidableEq

/-- An L-CHT. -/
abbrev BCuckoo (α : Type) := Table bup (BSlot α)

structure Holemerge (α : Type) where
  state : Int
  ll1 : Nat
  ll2 : Nat
  s1 : Int
  s2 : Int
  link : Three (BCuckoo α)
  blacklist : List (BSlot α)

/-- `num < (len1 + len2) * bup * rate` with `rate` 0.9. The product is rounded,
    but it never is a rounding error away from an integer. -/
def hasRoom {α : Type} (t : Table bup α) : Bool :=
  10 * t.num < 9 * ((t.len1 + t.len2) * bup : Nat)

/-- `num / sum < cthres` with `cthres` 0.35. -/
def sparse (num : Int) (sum : Nat) : Bool := 20 * num < 7 * (sum : Int)

namespace Memory

variable {α : Type}

def initial : Memory α := ⟨Heap.empty, [], 0, false⟩

/-- A failed assertion, or a null or dangling pointer followed. -/
def crash (m : Memory α) : Memory α := { m with fault := true }

/-- The S-CHT a pointer refers to. -/
def deref (m : Memory α) (p : Option Addr) : Option (Addr × Cuckoo α) :=
  p.bind fun a => (m.heap.get a).map (a, ·)

/-- Push entries of `src` onto `sblacklist`. -/
def deny (m : Memory α) (src : Key) (left : List α) : Memory α :=
  { m with sblacklist := m.sblacklist ++ left.map (⟨src, ·⟩) }

end Memory

end CuckooGraph
