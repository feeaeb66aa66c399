import CuckooGraph.Basic

/-! # `mergehash1`

A set of keys in up to three tables of `Cuckoo.h` and a blacklist. The tables
grow, shrink and disappear one by one.
-/

namespace CuckooGraph

open TwoLayer

/-- A table of `Cuckoo.h` with seeds of its own. -/
abbrev KeyTable := Table bup Key

/-- How `Bucket` reads its cells, and the seeds of the table. -/
def keyCells (E : Env) (s1 s2 : Int) : Cells Key where
  zero := 0
  free x := x == 0
  skip x := x == 0
  same x y := x == y
  hash flag x := E.mmhash x (if flag then s1 else s2)

namespace KeyTable

variable (H : Cells Key)

def queryIn (t : KeyTable) (flag : Bool) (item : Key) : Bool :=
  (t.bucketOf H flag item).cells.any (· == item)

def query (t : KeyTable) (item : Key) : Bool := queryIn H t true item || queryIn H t false item

/-- `Layer::del`. -/
def delIn (t : KeyTable) (flag : Bool) (item : Key) : Option KeyTable :=
  let pos := Layer.pos (H.hash flag) (t.side flag) item
  ((t.bucketOf H flag item).cells.findIdx? (· == item)).map fun j =>
    { t.overwrite H flag pos j 0 with num := t.num - 1 }

def del (t : KeyTable) (item : Key) : Option KeyTable :=
  match delIn H t true item with
  | some t' => some t'
  | none => delIn H t false item

section Modulus

/-- `query` or `del` reduces a hash by a length of 0. The second layer is asked
    only if the first does not have the key. -/
def queryFault (t : KeyTable) (item : Key) : Bool := t.len1 == 0 || !queryIn H t true item && t.len2 == 0

/-- `insert` does. The second layer is tried only if the first has no room. -/
def insertFault (t : KeyTable) (item : Key) : Bool :=
  t.len1 == 0 ||
    match Layer.put H (H.hash true) t.layer1 item with
    | .full => t.len2 == 0
    | _ => false

/-- One of a series of insertions does. -/
def insertAllFault (rand : Nat → Nat) : List Key → KeyTable → Nat → Bool
  | [], _, _ => false
  | x :: xs, t, draws =>
      let one := t.insert H kicktimes rand draws x
      insertFault H t x || insertAllFault rand xs one.table one.draws

/-- The query of some tables in turn does. -/
def findFault (item : Key) : List KeyTable → Bool
  | [] => false
  | t :: ts => queryFault H t item || !query H t item && findFault item ts

end Modulus

end KeyTable

/-- `fault` says that a hash was reduced by a length of 0, or a null pointer followed. -/
structure Mergehash1 where
  ll1 : Nat
  ll2 : Nat
  s1 : Int
  s2 : Int
  link : Three KeyTable
  blacklist : List Key
  rands : Nat
  fault : Bool

namespace Mergehash1

variable (E : Env)

def new (l1 l2 : Nat) (s1 s2 : Int) : Mergehash1 := ⟨l1, l2, s1, s2, .null, [], 0, false⟩

def cells (h : Mergehash1) : Cells Key := keyCells E h.s1 h.s2

/-- Copy both layers into both halves of layers twice as long, and erase one of the
    two copies of each key. -/
def expand (H : Cells Key) (c1 : KeyTable) : KeyTable :=
  ⟨Layer.double H (H.hash true) c1.layer1, Layer.double H (H.hash false) c1.layer2, c1.num⟩

def query (h : Mergehash1) (e : Key) : Bool :=
  h.link.toList.any (KeyTable.query (h.cells E) · e) || h.blacklist.any (· == e)

/-- The least load `tr` so far, as a fraction, with the number of its table, and the
    number of the first link that is null. -/
structure Loads where
  tr : Int × Nat
  aim : Nat
  tnull : Option Nat

/-- The loads are quotients of doubles. They compare as the fractions do: the sums
    are 24 times a power of 2. -/
def loads (link : Three KeyTable) : Loads :=
  [0, 1, 2].foldl (fun s i =>
    match link.get i with
    | some t =>
        let sum := (t.len1 + t.len2) * bup
        if t.num * s.tr.2 < s.tr.1 * sum then { s with tr := (t.num, sum), aim := i } else s
    | none => if s.tnull.isNone then { s with tnull := some i } else s) ⟨(2, 1), 0, none⟩

/-- The table with the shortest first layer. -/
def smallest (link : Three KeyTable) : Nat :=
  ([1, 2].foldl (fun (s : Nat × Nat) i =>
    let len1 := ((link.get i).map Table.len1).getD 0
    if len1 < s.1 then (len1, i) else s) (((link.get 0).map Table.len1).getD 0, 0)).2

/-- `link[i]->insert(e)`, what is kicked out being blacklisted. -/
def insertAt (h : Mergehash1) (i : Nat) (t : KeyTable) (e : Key) : Mergehash1 :=
  let r := t.insert (h.cells E) kicktimes E.rand h.rands e
  { h with link := h.link.set i (some r.table),
           blacklist := h.blacklist ++ r.left.toList,
           rands := r.draws,
           fault := h.fault || KeyTable.insertFault (h.cells E) t e }

/-- Insert the blacklist into a table, which becomes `link[i]`, and then `e`. -/
def drainInto (h : Mergehash1) (i : Nat) (t : KeyTable) (e : Key) : Mergehash1 :=
  let r := Table.insertAll (h.cells E) kicktimes E.rand h.blacklist t h.rands
  insertAt E { h with blacklist := r.left,
                      rands := r.draws,
                      fault := h.fault || KeyTable.insertAllFault (h.cells E) E.rand h.blacklist t h.rands }
    i r.table e

/-- `_l1` and `_l2`, halved `tnull` times. -/
def freshTable (h : Mergehash1) (tnull : Nat) : KeyTable :=
  Table.new (h.cells E) (h.ll1 / 2 ^ tnull) (h.ll2 / 2 ^ tnull)

def insert (h : Mergehash1) (e : Key) : Mergehash1 :=
  let found := h.query E e
  let h := { h with fault := h.fault || KeyTable.findFault (h.cells E) e h.link.toList }
  if found then h
  else
    let s := loads h.link
    if 10 * s.tr.1 < 9 * (s.tr.2 : Int) then
      match h.link.get s.aim with
      | some t => insertAt E h s.aim t e
      | none => { h with fault := true }
    else
      match s.tnull with
      | some tnull => drainInto E h tnull (h.freshTable E tnull) e
      | none =>
          match h.link.get (smallest h.link) with
          | some t => drainInto E h (smallest h.link) (expand (h.cells E) t) e
          | none => { h with fault := true }

/-- `compress`, with the blacklist. -/
def compressAt (h : Mergehash1) (i : Nat) (t : KeyTable) : Mergehash1 :=
  let H := h.cells E
  let r1 := Layer.halve H t.layer1
  let r2 := Layer.halve H t.layer2
  let r := Table.compress H kicktimes E.rand t h.rands
  { h with link := h.link.set i (some r.table),
           blacklist := h.blacklist ++ r.left,
           rands := r.draws,
           fault := h.fault || KeyTable.insertAllFault H E.rand (r1.2 ++ r2.2) ⟨r1.1, r2.1, 0⟩ h.rands }

def del (h : Mergehash1) (e : Key) : Mergehash1 × Int :=
  let H := h.cells E
  let h := { h with fault := h.fault || KeyTable.findFault H e h.link.toList }
  match [0, 1, 2].findSome? fun i => (h.link.get i).bind fun t => (KeyTable.del H t e).map (i, ·) with
  | some (i, t) =>
      if t.num = 0 then ({ h with link := h.link.set i none }, 1)
      else if minc2 ≤ t.len2 ∧ sparse t.num ((t.len1 + t.len2) * bup) then (compressAt E h i t, 1)
      else ({ h with link := h.link.set i (some t) }, 1)
  | none =>
      if h.blacklist.any (· == e) then ({ h with blacklist := h.blacklist.erase e }, 1)
      else (h, 0)

section Runs

inductive Op
  | insert (e : Key)
  | del (e : Key)
  | query (e : Key)

def Op.key : Op → Key
  | .insert e => e
  | .del e => e
  | .query e => e

def perform (h : Mergehash1) : Op → Mergehash1
  | .insert e => h.insert E e
  | .del e => (h.del E e).1
  | .query e => { h with fault := h.fault || KeyTable.findFault (h.cells E) e h.link.toList }

/-- Calls on a fresh set. -/
def run (l1 l2 : Nat) (s1 s2 : Int) (ops : List Op) : Mergehash1 := ops.foldl (perform E) (new l1 l2 s1 s2)

/-- The last `insert` or `del` of a key was an `insert`. -/
def inserted (ops : List Op) (e : Key) : Bool :=
  ops.foldl (fun b op =>
    match op with
    | .insert x => if x = e then true else b
    | .del x => if x = e then false else b
    | .query _ => b) false

end Runs

end Mergehash1

end CuckooGraph
