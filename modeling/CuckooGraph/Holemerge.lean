import CuckooGraph.BSlot

/-! # holemerge: the sources of a graph

The L-CHTs of both builds are the same; they treat a `bSlot` through its two
operations `insert` and the probe of `query3` (`query`, or `query_insert` in
the weighted build), which are parameters here.
-/

namespace CuckooGraph

open TwoLayer

variable {α : Type} [Entry α]

/-- `bSlot::insert`, and what `query3` asks of the `bSlot` it has found. -/
structure SlotOps (α : Type) where
  insert : Memory α → BSlot α → Arc α → Memory α × BSlot α × Int
  probe : Memory α → BSlot α → Arc α → Memory α × BSlot α × Bool

/-- Where a `bSlot` is: the registers `layernum`, `idth` and `bslotnum` with the
    number of the link, or its index in `blacklist`. -/
inductive Loc where
  | link (i : Nat) (flag : Bool) (idth bslotnum : Nat)
  | denied (idth : Nat)
  deriving DecidableEq

namespace Holemerge

def fresh (l1 l2 : Nat) (s1 s2 : Int) : Holemerge α := ⟨-1, l1, l2, s1, s2, Three.null, []⟩

section Tables

variable (E : Env) (h : Holemerge α)

def seed : Bool → Int
  | true => h.s1
  | false => h.s2

/-- How `bBucket` reads the cells of an L-CHT. -/
def slotCells : Cells (BSlot α) where
  zero := BSlot.empty
  free := BSlot.isSlotEmpty
  skip b := b.src == 0
  same _ _ := false
  hash flag b := E.mmhash b.src (h.seed flag)

/-- The tables `link[0..state]`. -/
def tables : List (Nat × BCuckoo α) :=
  [0, 1, 2].filterMap fun i : Nat => if (i : Int) ≤ h.state then (h.link.get i).map (i, ·) else none

/-- The bucket of an L-CHT that the hash of `src` names. -/
def home (t : BCuckoo α) (flag : Bool) (src : Key) : Nat × Bucket bup (BSlot α) :=
  let ha := E.mmhash src (h.seed flag) % (t.side flag).length
  (ha, Layer.bucketAt (h.slotCells E) (t.side flag) ha)

/-- The first `bSlot` of `src` in one table. -/
def locateIn (t : BCuckoo α) (src : Key) : Option (Bool × Nat × Nat × BSlot α) :=
  [true, false].findSome? fun flag =>
    let (ha, bucket) := h.home E t flag src
    (bucket.cells.zipIdx.find? fun (s, _) => s.src == src).map fun (s, j) => (flag, ha, j, s)

/-- The first `bSlot` of `src`: in `link[0..state]`, then in `blacklist`. -/
def locate (src : Key) : Option (Loc × BSlot α) :=
  match h.tables.findSome? fun (i, t) =>
      (h.locateIn E t src).map fun (flag, ha, j, s) => (Loc.link i flag ha j, s) with
  | some found => some found
  | none => (h.blacklist.zipIdx.find? fun (s, _) => s.src == src).map fun (s, j) => (.denied j, s)

/-- Write a `bSlot` back to where it was found. -/
def setAt (loc : Loc) (s : BSlot α) : Holemerge α :=
  match loc with
  | .link i flag ha j =>
      match h.link.get i with
      | some t => { h with link := h.link.set i (some (t.overwrite (h.slotCells E) flag ha j s)) }
      | none => h
  | .denied j => { h with blacklist := h.blacklist.set j s }

end Tables

section Query

variable {ρ : Type} [Zero ρ] [DecidableEq ρ] (E : Env) (h : Holemerge α) (slot : BSlot α → ρ) (src : Key)

/-- `bLayer::query`: the answer of the first `bSlot` of the source in its bucket. -/
def queryLayer (t : BCuckoo α) (flag : Bool) : ρ :=
  match (h.home E t flag src).2.cells.find? fun s => s.src == src with
  | some s => slot s
  | none => 0

/-- `bCuckoo::query`. -/
def queryIn (t : BCuckoo α) : ρ :=
  if h.queryLayer E slot src t true ≠ 0 then h.queryLayer E slot src t true
  else h.queryLayer E slot src t false

/-- `holemerge::query`, given what a `bSlot` answers. -/
def ask : ρ :=
  match (h.tables.map fun (_, t) => h.queryIn E slot src t).find? (· ≠ 0) with
  | some ans => ans
  | none =>
      match h.blacklist.find? fun s => s.src == src with
      | some s => slot s
      | none => 0

end Query

section Insert

variable (E : Env) (O : SlotOps α)

/-- `bBucket::insert(Edge)`. -/
def insertBucket (m : Memory α) (b : Bucket bup (BSlot α)) (e : Arc α) :
    Memory α × Bucket bup (BSlot α) × Int :=
  match b.cells.findIdx? fun s => s.src == e.src with
  | some i =>
      let (m, s, _) := O.insert m (b.cells.getD i BSlot.empty) e
      (m, b.set i s, -1)
  | none =>
      match b.cells.findIdx? fun s => (O.insert m s e).2.2 != 0 with
      | some i =>
          let (m, s, _) := O.insert m (b.cells.getD i BSlot.empty) e
          (m, b.set i s, 1)
      | none => (m, b, 0)

/-- `bCuckoo::insert(Edge)`, with what it leaves in `holekick` if it fails. -/
def insertEdge (h : Holemerge α) (m : Memory α) (t : BCuckoo α) (e : Arc α) :
    Memory α × BCuckoo α × Option (BSlot α) :=
  let (ha1, b1) := h.home E t true e.src
  let (m1, b1, ir1) := insertBucket O m b1 e
  if ir1 ≠ 0 then
    (m1, { t with layer1 := t.layer1.set ha1 b1, num := if ir1 = 1 then t.num + 1 else t.num }, none)
  else
    let (ha2, b2) := h.home E t false e.src
    let (m2, b2, ir2) := insertBucket O m b2 e
    if ir2 ≠ 0 then
      (m2, { t with layer2 := t.layer2.set ha2 b2, num := if ir2 = 1 then t.num + 1 else t.num }, none)
    else
      let (m, ins, _) := O.insert m BSlot.empty e
      let r := t.kickLoop (h.slotCells E) E.rand kicktimes true m.rands ins
      ({ m with rands := r.draws }, r.table, r.left)

/-- Insert into the table `link[i]`, pushing `holekick` if that fails. -/
def insertInto (m : Memory α) (h : Holemerge α) (i : Nat) (t : BCuckoo α) (e : Arc α) :
    Memory α × Holemerge α × Bool :=
  let (m, t, holekick) := insertEdge E O h m t e
  (m, { h with link := h.link.set i (some t), blacklist := h.blacklist ++ holekick.toList }, true)

/-- A new L-CHT `link[i]` takes the whole of `blacklist`, then the edge. -/
def openLink (m : Memory α) (h : Holemerge α) (i : Nat) (l1 l2 : Nat) (e : Arc α) :
    Memory α × Holemerge α × Bool :=
  let drained := Table.insertAll (h.slotCells E) kicktimes E.rand h.blacklist
    (Table.new (h.slotCells E) l1 l2) m.rands
  insertInto E O { m with rands := drained.draws } { h with state := i, blacklist := drained.left }
    i drained.table e

/-- The table an insert of a new source goes to. -/
def roomyLink (h : Holemerge α) : Option (Nat × BCuckoo α) :=
  ([2, 1, 0].filter fun i : Nat => (i : Int) ≤ h.state).findSome? fun i =>
    match h.link.get i with
    | some t => if hasRoom t && h.blacklist.length < bbl then some (i, t) else none
    | none => none

/-- The part of `holemerge::insert` behind `query3`: a new source. -/
def place (m : Memory α) (h : Holemerge α) (e : Arc α) : Memory α × Holemerge α × Bool :=
  if h.state = -1 then
    insertInto E O m { h with state := 0 } 0 (Table.new (h.slotCells E) h.ll1 h.ll2) e
  else if h.state = 0 then
    match h.link.s0 with
    | some t0 =>
        if !hasRoom t0 || bbl ≤ h.blacklist.length then
          openLink E O m h 1 (t0.len1 / 2) (t0.len2 / 2) e
        else insertInto E O m h 0 t0 e
    | none => (m.crash, h, true)
  else if h.state = 1 then
    match h.roomyLink with
    | some (i, t) => insertInto E O m h i t e
    | none =>
        match h.link.s1 with
        | some t1 => openLink E O m h 2 t1.len1 t1.len2 e
        | none => (m.crash, h, true)
  else if h.state = 2 then
    match h.roomyLink with
    | some (i, t) => insertInto E O m h i t e
    | none =>
        match h.link.s0, h.link.s1, h.link.s2 with
        | some c0, some c1, some c2 =>
            let r := Table.merge (h.slotCells E) kicktimes E.rand c0 c1 c2 m.rands
            let h := { h with link := ⟨some r.table, none, none⟩, blacklist := h.blacklist ++ r.left }
            openLink E O { m with rands := r.draws } h 1 (r.table.len1 / 2) (r.table.len2 / 2) e
        | _, _, _ => (m.crash, h, true)
  else (m.crash, h, false) -- the exit which prints BUG!

/-- `holemerge::insert`: `query3`, then the `bSlot` it has found or a new one. -/
def insertArc (m : Memory α) (h : Holemerge α) (e : Arc α) : Memory α × Holemerge α × Bool :=
  match h.locate E e.src with
  | some (loc, s) =>
      let (m, s, sure) := O.probe m s e
      if sure then (m, h.setAt E loc s, true)
      else
        let (m, s, _) := O.insert m s e
        (m, h.setAt E loc s, true)
  | none => place E O m h e

end Insert

end Holemerge

end CuckooGraph
