import CuckooGraph.Holemerge
import CuckooGraph.Table.Loop

/-! # The unweighted build

An S-CHT cell holds a destination, and `Bucket::insert` looks for it first. -/

namespace CuckooGraph

open TwoLayer

instance : Entry Key where
  dst x := x
  zero := 0
  checked := true
  lt := 6

instance : LawfulEntry Key := ⟨rfl, by decide⟩

def Edge.arc (e : Edge) : Arc Key := ⟨e.src, e.dst⟩

section Cuckoo

variable (E : Env)

def Cuckoo.query (c : Cuckoo Key) (item : Key) : Bool :=
  (c.bucketOf (chtCells E) true item).cells.any (· == item) ||
    (c.bucketOf (chtCells E) false item).cells.any (· == item)

/-- `Layer::del`: clear the first cell which holds the key. -/
def Cuckoo.delIn (c : Cuckoo Key) (flag : Bool) (item : Key) : Option (Cuckoo Key) :=
  let pos := Layer.pos ((chtCells E).hash flag) (c.side flag) item
  ((c.bucketOf (chtCells E) flag item).cells.findIdx? (· == item)).map fun j =>
    { c.overwrite (chtCells E) flag pos j 0 with num := c.num - 1 }

/-- The table without the item, or `none` where the program returns 0. -/
def Cuckoo.del (c : Cuckoo Key) (item : Key) : Option (Cuckoo Key) :=
  match Cuckoo.delIn E c true item with
  | some c' => some c'
  | none => Cuckoo.delIn E c false item

end Cuckoo

namespace BSlot

variable (E : Env)

/-- The number of the S-CHT which holds the destination. -/
def querySlots (m : Memory Key) (slot : Three Addr) (dst : Key) : Option Nat :=
  [0, 1, 2].find? fun i =>
    match m.deref (slot.get i) with
    | some (_, c) => Cuckoo.query E c dst
    | none => false

def query (m : Memory Key) (b : BSlot Key) (e : Edge) : Int :=
  if e.src ≠ b.src then 0
  else match b.body with
    | .chts slot =>
        match querySlots E m slot e.dst with
        | some i => i + 9
        | none => if m.sblacklist.any (· == e.arc) then blist else 0
    | .inline pt cells => if cells.any (· == e.dst) then pt else 0

def insert (m : Memory Key) (b : BSlot Key) (EE : Arc Key) : Memory Key × BSlot Key × Int :=
  match b.body with
  | .inline pt cells =>
      if pt = 0 then (m, ⟨EE.src, .inline 1 (cells.set 0 EE.item)⟩, 1)
      else if b.src ≠ EE.src then (m, b, 0)
      else insertInline E m b.src id pt cells EE.item
  | .chts slot =>
      if b.src ≠ EE.src then (m, b, 0)
      else if b.query E m ⟨EE.src, EE.item⟩ ≠ 0 then (m, b, b.query E m ⟨EE.src, EE.item⟩)
      else
        let (m, slot, ret) := insertChts E m b.src slot EE.item
        (m, ⟨b.src, .chts slot⟩, ret)

/-- The S-CHT which has given up the destination, with its number. -/
def delSlots (m : Memory Key) (slot : Three Addr) (dst : Key) : Option (Memory Key) :=
  [0, 1, 2].findSome? fun i =>
    match m.deref (slot.get i) with
    | some (a, c) => (Cuckoo.del E c dst).map fun c => { m with heap := m.heap.set a c }
    | none => none

/-- `bSlot::compress`. -/
def compressSlot (m : Memory Key) (src : Key) (a : Addr) (c1 : Cuckoo Key) : Memory Key × Addr :=
  let r := Table.compress (chtCells E) kicktimes E.rand c1 m.rands
  let (heap, a') := m.heap.alloc r.table
  (({ m with heap := heap.free a, rands := r.draws }).deny src r.left, a')

/-- The contraction at the end of `bSlot::del`, one S-CHT having lost an item. -/
def contract (m : Memory Key) (b : BSlot Key) (slot : Three Addr) (src : Key) :
    Memory Key × BSlot Key × Int :=
  match slot.toList.length with
  | 1 =>
      match m.deref slot.s0 with
      | none => (m.crash, b, 1)
      | some (a0, c0) =>
          if c0.num = 0 then
            let m := { m with heap := m.heap.free a0 }
            if m.sblacklist.any fun d => d.src == src then
              (m, ⟨b.src, .chts (slot.set 0 none)⟩, 1)
            else (m, BSlot.empty, -1)
          else if minc2 ≤ c0.len2 ∧ sparse c0.num ((c0.len1 + c0.len2) * bup) then
            let (m, a) := compressSlot E m b.src a0 c0
            (m, ⟨b.src, .chts (slot.set 0 (some a))⟩, 1)
          else (m, b, 1)
  | 2 =>
      match m.deref slot.s0, m.deref slot.s1 with
      | some (a0, c0), some (a1, c1) =>
          if c1.num = 0 then
            ({ m with heap := m.heap.free a1 }, ⟨b.src, .chts (slot.set 1 none)⟩, 1)
          else if sparse (c0.num + c1.num) ((c0.len1 + c0.len2) * bup + (c1.len1 + c1.len2) * bup) then
            let r := Table.insertAll (chtCells E) kicktimes E.rand (c1.items (chtCells E)) c0 m.rands
            (({ m with heap := (m.heap.set a0 r.table).free a1, rands := r.draws }).deny b.src r.left,
              ⟨b.src, .chts (slot.set 1 none)⟩, 1)
          else (m, b, 1)
      | _, _ => (m.crash, b, 1)
  | 3 =>
      match m.deref slot.s0, m.deref slot.s1, m.deref slot.s2 with
      | some (a0, c0), some (a1, c1), some (a2, c2) =>
          let (sm, csm, bi, cbi) := if c2.num > c1.num then (a1, c1, a2, c2) else (a2, c2, a1, c1)
          if csm.num = 0 then
            ({ m with heap := m.heap.free sm }, ⟨b.src, .chts ⟨some a0, some bi, none⟩⟩, 1)
          else if sparse (c0.num + c1.num + c2.num) ((c0.len1 + c0.len2) * bup +
              (c1.len1 + c1.len2) * bup + (c2.len1 + c2.len2) * bup) then
            let r := Table.pour (chtCells E) kicktimes E.rand hasRoom (csm.items (chtCells E)) c0 cbi
              m.rands
            (({ m with heap := ((m.heap.set a0 r.base).set bi r.other).free sm,
                       rands := r.draws }).deny b.src r.left,
              ⟨b.src, .chts ⟨some a0, some bi, none⟩⟩, 1)
          else (m, b, 1)
      | _, _, _ => (m.crash, b, 1)
  | _ => (m, b, 1)

def del (m : Memory Key) (b : BSlot Key) (e : Edge) : Memory Key × BSlot Key × Int :=
  if b.src ≠ e.src then (m, b, 0)
  else match b.body with
    | .inline pt cells =>
        if pt = 0 then (m, b, 2)
        else match cells.findIdx? (· == e.dst) with
          | some j =>
              if pt - 1 = 0 then (m, ⟨0, .inline 0 (cells.set j 0)⟩, -1)
              else (m, ⟨b.src, .inline (pt - 1) (cells.set j 0)⟩, 1)
          | none => (m, b, 2)
    | .chts slot =>
        match delSlots E m slot e.dst with
        | some m => contract E m b slot e.src
        | none =>
            let others := m.sblacklist.filter fun d => !(d == e.arc)
            if m.sblacklist.any (· == e.arc) then
              let flag := others.any fun d => d.src == e.src
              ({ m with sblacklist := others }, b,
                if flag then 1 else if slot.toList = [] then -1 else 1)
            else (m, b, 2)

end BSlot

def edgeOps (E : Env) : SlotOps Key where
  insert := BSlot.insert E
  probe m b e := (m, b, b.query E m ⟨e.src, e.item⟩ ≠ 0)

namespace Holemerge

variable (E : Env)

def insert (m : Memory Key) (h : Holemerge Key) (e : Edge) : Memory Key × Holemerge Key × Bool :=
  insertArc E (edgeOps E) m h e.arc

def query (m : Memory Key) (h : Holemerge Key) (e : Edge) : Int :=
  h.ask E (fun s => s.query E m e) e.src

/-- The contraction at the end of `main_del`, a `bSlot` of a link being empty. -/
def contract (m : Memory Key) (h : Holemerge Key) : Memory Key × Holemerge Key :=
  if h.state = 0 then
    match h.link.s0 with
    | none => (m.crash, h)
    | some c0 =>
        if c0.num = 0 then (m, { h with link := h.link.set 0 none, state := -1 })
        else if bminc2 ≤ c0.len2 ∧ sparse c0.num ((c0.len1 + c0.len2) * bup) then
          let r := Table.compress (h.slotCells E) kicktimes E.rand c0 m.rands
          ({ m with rands := r.draws },
            { h with link := h.link.set 0 (some r.table), blacklist := h.blacklist ++ r.left })
        else (m, h)
  else if h.state = 1 then
    match h.link.s0, h.link.s1 with
    | some c0, some c1 =>
        if c1.num = 0 then (m, { h with link := h.link.set 1 none, state := 0 })
        else if sparse (c0.num + c1.num) ((c0.len1 + c0.len2) * bup + (c1.len1 + c1.len2) * bup) then
          let r := Table.insertAll (h.slotCells E) kicktimes E.rand (c1.items (h.slotCells E)) c0 m.rands
          ({ m with rands := r.draws },
            { h with link := ⟨some r.table, none, h.link.s2⟩, state := 0,
                     blacklist := h.blacklist ++ r.left })
        else (m, h)
    | _, _ => (m.crash, h)
  else if h.state = 2 then
    match h.link.s0, h.link.s1, h.link.s2 with
    | some c0, some c1, some c2 =>
        let (csm, cbi) := if c2.num > c1.num then (c1, c2) else (c2, c1)
        if csm.num = 0 then (m, { h with link := ⟨some c0, some cbi, none⟩, state := 1 })
        else if sparse (c0.num + c1.num + c2.num) ((c0.len1 + c0.len2) * bup +
            (c1.len1 + c1.len2) * bup + (c2.len1 + c2.len2) * bup) then
          let r := Table.pour (h.slotCells E) kicktimes E.rand hasRoom (csm.items (h.slotCells E))
            c0 cbi m.rands
          ({ m with rands := r.draws },
            { h with link := ⟨some r.base, some r.other, none⟩, state := 1,
                     blacklist := h.blacklist ++ r.left })
        else (m, h)
    | _, _, _ => (m.crash, h)
  else (m, h)

/-- `--num` of `link[i]`. -/
def uncount (h : Holemerge Key) (i : Nat) : Holemerge Key :=
  match h.link.get i with
  | some t => { h with link := h.link.set i (some { t with num := t.num - 1 }) }
  | none => h

def mainDel (m : Memory Key) (h : Holemerge Key) (e : Edge) : Memory Key × Holemerge Key × Int :=
  match h.locate E e.src with
  | none => (m, h, 0)
  | some (.link i flag ha j, s) =>
      let (m, s, ans) := s.del E m e
      let h := h.setAt E (.link i flag ha j) s
      if ans = 2 then (m, h, 2)
      else if ans < 0 then
        let (m, h) := contract E m (h.uncount i)
        (m, h, -1)
      else (m, h, 1)
  | some (.denied j, s) =>
      let (m, s, ans) := s.del E m e
      if ans = 2 then (m, h.setAt E (.denied j) s, 2)
      else if ans < 0 then (m, { h with blacklist := h.blacklist.eraseIdx j }, -1)
      else (m, h.setAt E (.denied j) s, 1)

/-- One pass of the first loop of `post_del`. -/
def redrawEdge (m : Memory Key) (h : Holemerge Key) : Memory Key × Holemerge Key :=
  match m.sblacklist with
  | d :: rest =>
      let (m, h, _) := insert E { m with sblacklist := rest } h ⟨d.src, d.item⟩
      (m, h)
  | [] => (m, h)

/-- The link `post_del` inserts a denylisted `bSlot` into. -/
def sparseLink (h : Holemerge Key) : Option (Nat × BCuckoo Key) :=
  ([2, 1, 0].filter fun i : Nat => (i : Int) ≤ h.state).findSome? fun i =>
    match h.link.get i with
    | some t => if hasRoom t then some (i, t) else none
    | none => none

/-- One pass of the second loop of `post_del`. The `bSlot` is gone if no link
    has room. -/
def redrawSlot (m : Memory Key) (h : Holemerge Key) : Memory Key × Holemerge Key :=
  match h.blacklist with
  | b :: rest =>
      match h.sparseLink with
      | some (i, t) =>
          let r := t.insert (h.slotCells E) kicktimes E.rand m.rands b
          ({ m with rands := r.draws },
            { h with link := h.link.set i (some r.table), blacklist := rest ++ r.left.toList })
      | none => (m, { h with blacklist := rest })
  | [] => (m, h)

section Loops

/-- The loop conditions of `post_del`. -/
def edgesOver (s : Memory Key × Holemerge Key) : Bool := sbl < s.1.sblacklist.length

def slotsOver (s : Memory Key × Holemerge Key) : Bool := bbl < s.2.blacklist.length

/-- The first loop of `post_del`, `none` if it takes more than `fuel` passes. -/
def drainEdges (fuel : Nat) (m : Memory Key) (h : Holemerge Key) : Option (Memory Key × Holemerge Key) :=
  Loop.run edgesOver (fun s => redrawEdge E s.1 s.2) fuel (m, h)

/-- The second loop of `post_del`. -/
def drainSlots (fuel : Nat) (m : Memory Key) (h : Holemerge Key) : Option (Memory Key × Holemerge Key) :=
  Loop.run slotsOver (fun s => redrawSlot E s.1 s.2) fuel (m, h)

end Loops

def postDel (fuel : Nat) (m : Memory Key) (h : Holemerge Key) :
    Option (Memory Key × Holemerge Key) :=
  match drainEdges E fuel m h with
  | some (m, h) => drainSlots E fuel m h
  | none => none

def del (fuel : Nat) (m : Memory Key) (h : Holemerge Key) (e : Edge) :
    Option (Memory Key × Holemerge Key × Int) :=
  let (m, h, ret) := mainDel E m h e
  (postDel E fuel m h).map fun (m, h) => (m, h, ret)

end Holemerge

end CuckooGraph
