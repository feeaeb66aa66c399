import CuckooGraph.Holemerge
import Mathlib.Data.UInt

/-! # The weighted build

A cell holds a destination with its weight. `Bucket::insert` does not look for
the destination; `query_insert` has done so, and has added to the weight if it
was there.
-/

namespace CuckooGraph

namespace Weighted

open TwoLayer

/-- A destination and its weight. Written inline the weight is an `int` of the
    same 32 bits. -/
structure Cell where
  dst : Key
  weight : UInt32
  deriving DecidableEq, Repr

instance : Entry Cell where
  dst := Cell.dst
  zero := ⟨0, 0⟩
  checked := false
  lt := 3

instance : LawfulEntry Cell := ⟨rfl, by decide⟩

def Cell.add (w : UInt32) (c : Cell) : Cell := { c with weight := c.weight + w }

def arc (e : Edge) (w : UInt32) : Arc Cell := ⟨e.src, ⟨e.dst, w⟩⟩

/-- The weight in the first cell which holds the destination, 0 if none does. -/
def weightOf (cells : List Cell) (dst : Key) : UInt32 :=
  match cells.find? fun c => c.dst == dst with
  | some c => c.weight
  | none => 0

namespace Cuckoo

variable (E : Env) (c : Cuckoo Cell)

def query (item : Key) : UInt32 :=
  let q := weightOf (c.bucketOf (chtCells E) true ⟨item, 0⟩).cells item
  if q ≠ 0 then q else weightOf (c.bucketOf (chtCells E) false ⟨item, 0⟩).cells item

/-- `Layer::query_insert`: add to the weight in the first cell which holds the key. -/
def queryInsertIn (flag : Bool) (item : Cell) : Option (Cuckoo Cell) :=
  let pos := Layer.pos ((chtCells E).hash flag) (c.side flag) item
  let cells := (c.bucketOf (chtCells E) flag item).cells
  (cells.findIdx? fun d => d.dst == item.dst).map fun j =>
    c.overwrite (chtCells E) flag pos j ((cells.getD j item).add item.weight)

/-- `Cuckoo::query_insert`, `none` where it returns 0. -/
def queryInsert (item : Cell) : Option (Cuckoo Cell) :=
  match queryInsertIn E c true item with
  | some c' => some c'
  | none => queryInsertIn E c false item

end Cuckoo

namespace BSlot

variable (E : Env) (m : Memory Cell)

/-- The first answer of an S-CHT which is not 0. -/
def querySlots (slot : Three Addr) (dst : Key) : Option UInt32 :=
  searchSlots m slot fun _ _ c =>
    let aa := Cuckoo.query E c dst
    if aa ≠ 0 then some aa else none

def query (b : BSlot Cell) (e : Edge) : UInt32 :=
  if e.src ≠ b.src then 0
  else match b.body with
    | .chts slot =>
        match querySlots E m slot e.dst with
        | some aa => aa
        | none =>
            match m.sblacklist.find? fun d => d.src == e.src && d.item.dst == e.dst with
            | some d => d.item.weight
            | none => 0
    | .inline _ cells => weightOf cells e.dst

/-- The memory after an S-CHT has added to the weight, with its number. -/
def queryInsertSlots (slot : Three Addr) (item : Cell) : Option (Memory Cell × Nat) :=
  searchSlots m slot fun i a c =>
    (Cuckoo.queryInsert E c item).map fun c => ({ m with heap := m.heap.set a c }, i)

/-- Outside of the S-CHTs it adds 1, not the weight. -/
def queryInsert (b : BSlot Cell) (e : Arc Cell) : Memory Cell × BSlot Cell × Int :=
  if e.src ≠ b.src then (m, b, 0)
  else match b.body with
    | .chts slot =>
        match queryInsertSlots E m slot e.item with
        | some (m, i) => (m, b, i + 9)
        | none =>
            match m.sblacklist.findIdx? fun d => d.src == e.src && d.item.dst == e.item.dst with
            | some j =>
                let d := m.sblacklist.getD j e
                ({ m with sblacklist := m.sblacklist.set j ⟨d.src, d.item.add 1⟩ }, b, blist)
            | none => (m, b, 0)
    | .inline pt cells =>
        match cells.findIdx? fun c => c.dst == e.item.dst with
        | some j => (m, ⟨b.src, .inline pt (cells.set j ((cells.getD j e.item).add 1))⟩, pt)
        | none => (m, b, 0)

def insert (b : BSlot Cell) (EE : Arc Cell) : Memory Cell × BSlot Cell × Int :=
  match b.body with
  | .inline pt cells =>
      if pt = 0 then (m, ⟨EE.src, .inline 1 (cells.set 0 EE.item)⟩, 1)
      else if b.src ≠ EE.src then (m, b, 0)
      else insertInline E m b.src (Cell.add EE.item.weight) pt cells EE.item
  | .chts slot =>
      if b.src ≠ EE.src then (m, b, 0)
      else
        let (m, slot, ret) := insertChts E m b.src slot EE.item
        (m, ⟨b.src, .chts slot⟩, ret)

end BSlot

/-- `insert_query3` probes with `query_insert`. -/
def weightOps (E : Env) : SlotOps Cell where
  insert := BSlot.insert E
  probe m b e :=
    let (m, b, ret) := BSlot.queryInsert E m b e
    (m, b, ret ≠ 0)

variable (E : Env)

def insert (m : Memory Cell) (h : Holemerge Cell) (e : Edge) (w : UInt32) :
    Memory Cell × Holemerge Cell × Bool :=
  h.insertArc E (weightOps E) m (arc e w)

def query (m : Memory Cell) (h : Holemerge Cell) (e : Edge) : UInt32 :=
  h.ask E (fun s => BSlot.query E m s e) e.src

end Weighted

end CuckooGraph
