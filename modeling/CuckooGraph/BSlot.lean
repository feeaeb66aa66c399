import CuckooGraph.Basic

/-! # bSlot: the destinations of one source -/

namespace CuckooGraph

open TwoLayer

variable {α : Type} [Entry α]

/-- How `Bucket` reads the cells of an S-CHT. -/
def chtCells (E : Env) : Cells α where
  zero := Entry.zero
  free x := Entry.dst x == 0
  skip x := Entry.dst x == 0
  same x y := Entry.checked α && Entry.dst x == Entry.dst y
  hash flag x := E.mmhash (Entry.dst x) (if flag then us1 else us2)

namespace BSlot

def empty : BSlot α := ⟨0, .inline 0 (List.replicate (Entry.lt α) Entry.zero)⟩

def pt (b : BSlot α) : Int :=
  match b.body with
  | .inline pt _ => pt
  | .chts _ => -1

def isSlotEmpty (b : BSlot α) : Bool := b.pt == 0

/-- The S-CHTs a `bSlot` points to. -/
def addrs (b : BSlot α) : List Addr :=
  match b.body with
  | .inline _ _ => []
  | .chts slot => slot.toList

end BSlot

/-- The first result of `f` for an S-CHT which a `bSlot` points to. -/
def searchSlots {ρ : Type} (m : Memory α) (slot : Three Addr) (f : Nat → Addr → Cuckoo α → Option ρ) :
    Option ρ :=
  [0, 1, 2].findSome? fun i =>
    match m.deref (slot.get i) with
    | some (a, c) => f i a c
    | none => none

section Growth

variable (E : Env) (m : Memory α) (src : Key) (slot : Three Addr)

/-- A new S-CHT takes the denylisted entries of `src`, which leave `sblacklist`
    one by one, and then `e`. Whatever is kicked out goes back to `sblacklist`. -/
def openTable (l1 l2 : Nat) (e : α) : Memory α × Addr :=
  let own := (m.sblacklist.filter fun d => d.src == src).map Arc.item
  let others := m.sblacklist.filter fun d => !(d.src == src)
  let drained := Table.insertAll (chtCells E) kicktimes E.rand own
    (Table.new (chtCells E) l1 l2) m.rands
  let last := drained.table.insert (chtCells E) kicktimes E.rand drained.draws e
  let (heap, a) := m.heap.alloc last.table
  (({ m with heap := heap, sblacklist := others, rands := last.draws }).deny src
    (drained.left ++ last.left.toList), a)

/-- `bSlot::merge` of `slot[0]`, `slot[1]` and `slot[2]`. -/
def mergeSlots (a0 a1 a2 : Addr) (c0 c1 c2 : Cuckoo α) : Memory α × Addr × Cuckoo α :=
  let r := Table.merge (chtCells E) kicktimes E.rand c0 c1 c2 m.rands
  let (heap, a) := m.heap.alloc r.table
  (({ m with heap := ((heap.free a0).free a1).free a2, rands := r.draws }).deny src r.left,
    a, r.table)

/-- The part of `bSlot::insert` behind the search for a table with room: one
    more S-CHT, after a merge if there are three. -/
def grow (e : α) : Memory α × Three Addr × Int :=
  match slot.toList.length with
  | 0 =>
      let r := (Table.new (chtCells E) u1 u2).insert (chtCells E) kicktimes E.rand m.rands e
      let (heap, a) := m.heap.alloc r.table
      (({ m with heap := heap, rands := r.draws }).deny src r.left.toList, slot.set 0 (some a), 9)
  | 1 =>
      match m.deref slot.s0 with
      | some (_, c0) =>
          let (m, a) := openTable E m src (c0.len1 / 2) (c0.len2 / 2) e
          (m, slot.set 1 (some a), 10)
      | none => (m.crash, slot, 0)
  | 2 =>
      match m.deref slot.s1 with
      | some (_, c1) =>
          let (m, a) := openTable E m src c1.len1 c1.len2 e
          (m, slot.set 2 (some a), 11)
      | none => (m.crash, slot, 0)
  | _ =>
      match m.deref slot.s0, m.deref slot.s1, m.deref slot.s2 with
      | some (a0, c0), some (a1, c1), some (a2, c2) =>
          let (m, a, cm) := mergeSlots E m src a0 a1 a2 c0 c1 c2
          let (m, a') := openTable E m src (cm.len1 / 2) (cm.len2 / 2) e
          (m, ⟨some a, some a', none⟩, 10)
      | _, _, _ => (m.crash, slot, 0)

/-- The S-CHT an insert goes to: the last one which has room. -/
def roomySlot : Option (Nat × Addr × Cuckoo α) :=
  [2, 1, 0].findSome? fun i =>
    match m.deref (slot.get i) with
    | some (a, c) => if hasRoom c then some (i, a, c) else none
    | none => none

/-- `bSlot::insert` for `pt < 0`, the item not being there. With `sblacklist`
    full, what is kicked out is not pushed but makes the `bSlot` grow. -/
def insertChts (x : α) : Memory α × Three Addr × Int :=
  match roomySlot m slot with
  | none => grow E m src slot x
  | some (i, a, c) =>
      let r := c.insert (chtCells E) kicktimes E.rand m.rands x
      let m' := { m with heap := m.heap.set a r.table, rands := r.draws }
      match r.left with
      | none => (m', slot, i + 9)
      | some mykick =>
          if m.sblacklist.length < sbl then (m'.deny src [mykick], slot, i + 9)
          else grow E m' src slot mykick

/-- The change of a full inline `bSlot` to an S-CHT. -/
def transform (cells : List α) (x : α) : Memory α × BSlot α × Int :=
  let r := Table.insertAll (chtCells E) kicktimes E.rand (cells ++ [x])
    (Table.new (chtCells E) u1 u2) m.rands
  let (heap, a) := m.heap.alloc r.table
  (({ m with heap := heap, rands := r.draws }).deny src r.left, ⟨src, .chts ⟨some a, none, none⟩⟩, -1)

/-- `bSlot::insert` for `pt > 0`. `update` is done to a cell which holds the
    destination already. -/
def insertInline (update : α → α) (pt : Nat) (cells : List α) (x : α) :
    Memory α × BSlot α × Int :=
  match cells.findIdx? fun c => Entry.dst c == Entry.dst x with
  | some j => (m, ⟨src, .inline pt (cells.set j (update (cells.getD j x)))⟩, pt)
  | none =>
      if pt = Entry.lt α then transform E m src cells x
      else match cells.findIdx? fun c => Entry.dst c == 0 with
        | some j => (m, ⟨src, .inline (pt + 1) (cells.set j x)⟩, (pt + 1 : Nat))
        | none => (m.crash, ⟨src, .inline pt cells⟩, 0)

end Growth

end CuckooGraph
