import CuckooGraph.Unweighted.Sharing

/-! # Two graphs in one program

Each graph has its links, its `blacklist` and its S-CHTs, but there is one
`sblacklist`. Its entries are told apart by their source only, and whoever is
constructed clears it. As long as no call meets an entry of the other graph in
a way that matters to it, each graph answers as if it were alone.

The registers of `query3` and of the kicks are shared, too, but each call writes
them before it reads them.
-/

namespace CuckooGraph

open TwoLayer Holemerge

/-- `hole` and `hole2`. -/
inductive Graph where
  | hole
  | hole2
  deriving DecidableEq

def Graph.other : Graph → Graph
  | hole => hole2
  | hole2 => hole

inductive Action where
  | construct (l1 l2 : Nat) (s1 s2 : Int)
  | insert (e : Edge)
  | del (e : Edge)
  | query (e : Edge)
  | querySuccessor (src : Key) (buf : Buffer) (U : Nat)
  | getNeighbors (src : Key)

inductive Answer where
  | constructed
  | inserted (done : Bool)
  | deleted (ret : Int)
  | queried (ret : Int)
  | successors (written : Buffer × Nat)
  | neighbors (v : List (Key × Nat))

/-- What a query has returned. -/
def Answer.ret : Answer → Int
  | queried ret => ret
  | _ => 0

/-- One call on a graph in its memory, `none` if a loop of `post_del` takes more
    than `fuel` passes. -/
def Action.perform (E : Env) (fuel : Nat) (a : Action) (s : Memory Key × Holemerge Key) :
    Option ((Memory Key × Holemerge Key) × Answer) :=
  match a with
  | .construct l1 l2 s1 s2 => some (({ s.1 with sblacklist := [] }, fresh l1 l2 s1 s2), .constructed)
  | .insert e =>
      let (m, h, done) := Holemerge.insert E s.1 s.2 e
      some ((m, h), .inserted done)
  | .del e => (Holemerge.del E fuel s.1 s.2 e).map fun (m, h, ret) => ((m, h), .deleted ret)
  | .query e => some (s, .queried (s.2.query E s.1 e))
  | .querySuccessor src buf U => some (s, .successors (s.2.querySuccessor E s.1 src buf U))
  | .getNeighbors src => some (s, .neighbors (s.2.getNeighbors E s.1 src))

/-- What one graph has for itself. -/
structure Object where
  heap : Heap (Cuckoo Key)
  rands : Nat
  fault : Bool
  graph : Holemerge Key

/-- The state of the program. -/
structure World where
  objects : Graph → Object
  sblacklist : List (Arc Key)

namespace World

def view (w : World) (i : Graph) : Memory Key × Holemerge Key :=
  let o := w.objects i
  (⟨o.heap, w.sblacklist, o.rands, o.fault⟩, o.graph)

def put (w : World) (i : Graph) (s : Memory Key × Holemerge Key) : World :=
  ⟨Function.update w.objects i ⟨s.1.heap, s.1.rands, s.1.fault, s.2⟩, s.1.sblacklist⟩

/-- Neither graph is constructed yet. -/
def start : World := ⟨fun _ => ⟨Heap.empty, 0, false, fresh 0 0 0 0⟩, []⟩

end World

section Runs

variable (mmhash : Key → Int → Nat) (rand : Graph → Nat → Nat) (fuel : Nat)

/-- Both graphs use the same hash, each sees its own values of `rand()`. -/
def own (i : Graph) (a : Action) (s : Memory Key × Holemerge Key) :
    Option ((Memory Key × Holemerge Key) × Answer) :=
  a.perform ⟨mmhash, rand i⟩ fuel s

def shared (i : Graph) (a : Action) (w : World) : Option (World × Answer) :=
  (own mmhash rand fuel i a (w.view i)).map fun r => (w.put i r.1, r.2)

/-- The calls of one graph in a program of its own. -/
def alone (i : Graph) (calls : List Action) : Option ((Memory Key × Holemerge Key) × List Answer) :=
  Calls.run (own mmhash rand fuel i) calls (World.start.view i)

/-- The calls of both graphs as they come, each answer with the graph it is from. -/
def together (calls : List (Graph × Action)) : Option (World × List (Graph × Answer)) :=
  Calls.run (Calls.tagged (shared mmhash rand fuel)) calls World.start

end Runs

/-- Among the entries `F` of the other graph there is none that matters to the
    call. A constructor must find none at all; the other calls look for the edge,
    take or list the entries of a source, or test the length of the list. -/
def Undisturbed (E : Env) (F : List (Arc Key)) (m : Memory Key) (h : Holemerge Key) : Action → Prop
  | .construct _ _ _ _ => F = []
  | .insert e => h.Keeps fun s => s.src = e.src → s.InsertsOwn E F m e
  | .del e => (h.Keeps fun s => s.src = e.src → s.DeletesOwn E F m e) ∧
      (F = [] ∨ (mainDel E m h e).1.sblacklist.length + F.length ≤ sbl)
  | .query e => h.Keeps fun s => s.src = e.src → s.QueriesOwn E F m e
  | .querySuccessor src _ _ => h.Keeps fun s => s.src = src → s.ListsOwn F src
  | .getNeighbors src => h.Keeps fun s => s.src = src → s.ListsOwn F src

/-- No call is disturbed by what the other graph has put on `sblacklist`. -/
def Separate (mmhash : Key → Int → Nat) (rand : Graph → Nat → Nat) (fuel : Nat)
    (calls : List (Graph × Action)) : Prop :=
  Calls.Each (own mmhash rand fuel)
    (fun s i a => Undisturbed ⟨mmhash, rand i⟩ (s i.other).1.sblacklist (s i).1 (s i).2 a)
    (fun i => World.start.view i) calls

section Step

variable {E : Env} {F : List (Arc Key)} {m₀ m : Memory Key} {h : Holemerge Key} {a : Action}

/-- An undisturbed call answers and acts alike. -/
theorem perform_agree (fuel : Nat) (shares : Shares F m₀ m) (undisturbed : Undisturbed E F m₀ h a) :
    Option.Rel (fun r₀ r => r.2 = r₀.2 ∧ Agree F r₀.1 r.1) (a.perform E fuel (m₀, h))
      (a.perform E fuel (m, h)) := by
  cases a with
  | construct l1 l2 s1 s2 =>
      obtain rfl : F = [] := undisturbed
      exact .some ⟨rfl, ⟨shares.heap, shares.rands, shares.fault, .nil⟩, rfl⟩
  | insert e =>
      obtain ⟨shared, same⟩ := insert_agree shares undisturbed
      simp only [Action.perform, same]
      exact .some ⟨rfl, shared, rfl⟩
  | del e =>
      obtain ⟨keeps, short⟩ := undisturbed
      have met := del_agree shares keeps short fuel
      simp only [Action.perform]
      generalize Holemerge.del E fuel m₀ h e = r₀ at met
      generalize Holemerge.del E fuel m h e = r at met
      cases met with
      | none => exact .none
      | some agree =>
          obtain ⟨shared, same⟩ := agree
          simp only [Option.map_some, same]
          exact .some ⟨rfl, shared, rfl⟩
  | query e =>
      simp only [Action.perform, query_agree shares undisturbed]
      exact .some ⟨rfl, shares, rfl⟩
  | querySuccessor src buf U =>
      simp only [Action.perform, querySuccessor_agree shares undisturbed buf U]
      exact .some ⟨rfl, shares, rfl⟩
  | getNeighbors src =>
      simp only [Action.perform, getNeighbors_agree shares undisturbed]
      exact .some ⟨rfl, shares, rfl⟩

/-- The other graph has denylisted nothing of the source which the call is about, and
    there is room for the entries of both. -/
def Action.Apart (E : Env) (F : List (Arc Key)) (m : Memory Key) (h : Holemerge Key) : Action → Prop
  | .construct _ _ _ _ => F = []
  | .insert e => Foreign F e.src ∧ m.sblacklist.length + F.length < sbl
  | .del e => Foreign F e.src ∧ (mainDel E m h e).1.sblacklist.length + F.length ≤ sbl
  | .query e => Foreign F e.src
  | .querySuccessor src _ _ => Foreign F src
  | .getNeighbors src => Foreign F src

instance (src : Key) : Decidable (Foreign F src) := inferInstanceAs (Decidable (∀ d ∈ F, d.src ≠ src))

instance : Decidable (a.Apart E F m h) :=
  match a with
  | .construct _ _ _ _ => inferInstanceAs (Decidable (F = []))
  | .insert e => inferInstanceAs (Decidable (Foreign F e.src ∧ _))
  | .del e => inferInstanceAs (Decidable (Foreign F e.src ∧ _))
  | .query e => inferInstanceAs (Decidable (Foreign F e.src))
  | .querySuccessor src _ _ => inferInstanceAs (Decidable (Foreign F src))
  | .getNeighbors src => inferInstanceAs (Decidable (Foreign F src))

/-- Entries of other sources disturb nobody who does not need their room. -/
theorem Action.Apart.undisturbed (apart : a.Apart E F m h) : Undisturbed E F m h a := by
  have keeps : ∀ {src : Key} {Q : Three Addr → Prop}, (∀ slot, Q slot) →
      h.Keeps fun s => s.src = src → s.OnChts Q := fun all =>
    ⟨fun _ => trivial, fun _ _ s _ _ => BSlot.onChts_of_all all s, fun s _ _ => BSlot.onChts_of_all all s⟩
  have absent : ∀ {e : Edge}, Foreign F e.src → e.arc ∉ F := fun foreign inside => foreign _ inside rfl
  cases a with
  | construct l1 l2 s1 s2 => exact apart
  | insert e =>
      obtain ⟨foreign, room⟩ := apart
      exact keeps fun slot _ => ⟨absent foreign, fun _ => room, fun _ => foreign⟩
  | del e =>
      obtain ⟨foreign, room⟩ := apart
      exact ⟨keeps fun slot => ⟨fun _ => absent foreign, fun _ => foreign⟩, .inr room⟩
  | query e => exact keeps fun slot _ => absent apart
  | querySuccessor src buf U => exact keeps fun slot => apart
  | getNeighbors src => exact keeps fun slot => apart

end Step

/-- The world is that of the two graphs, with their denylists interleaved. -/
structure Joined (s : Graph → Memory Key × Holemerge Key) (w : World) : Prop where
  objects : ∀ i, w.objects i = ⟨(s i).1.heap, (s i).1.rands, (s i).1.fault, (s i).2⟩
  list : ∀ i, Interleaved (s i).1.sblacklist (s i.other).1.sblacklist w.sblacklist

section Joined

variable {s : Graph → Memory Key × Holemerge Key} {w : World} {i : Graph}

theorem joined_start : Joined (fun i => World.start.view i) World.start := ⟨fun _ => rfl, fun _ => .nil⟩

theorem Graph.eq_or_other (i j : Graph) : j = i ∨ j = i.other := by cases i <;> cases j <;> decide

theorem Joined.view (joined : Joined s w) (i : Graph) :
    Shares (s i.other).1.sblacklist (s i).1 (w.view i).1 ∧ (w.view i).2 = (s i).2 := by
  have object := joined.objects i
  unfold World.view
  rw [object]
  exact ⟨⟨rfl, rfl, rfl, joined.list i⟩, rfl⟩

theorem Joined.put (joined : Joined s w) {r₀ r : Memory Key × Holemerge Key}
    (agree : Agree (s i.other).1.sblacklist r₀ r) : Joined (Function.update s i r₀) (w.put i r) := by
  obtain ⟨shared, same⟩ := agree
  have ne : i.other ≠ i := by cases i <;> decide
  have back : i.other.other = i := by cases i <;> rfl
  constructor
  · intro j
    cases Graph.eq_or_other i j with
    | inl self =>
        subst self
        simp only [World.put, Function.update_self, shared.heap, shared.rands, shared.fault, same]
    | inr other =>
        subst other
        simp only [World.put, Function.update_of_ne ne, joined.objects]
  · intro j
    cases Graph.eq_or_other i j with
    | inl self =>
        subst self
        simp only [World.put, Function.update_self, Function.update_of_ne ne]
        exact shared.list
    | inr other =>
        subst other
        rw [back]
        simp only [World.put, Function.update_self, Function.update_of_ne ne]
        exact shared.list.swap

end Joined

/-- Two graphs whose calls are not disturbed answer as each does alone: if the
    calls return together, each graph has the answers it has alone, and they
    return together if they do alone. -/
theorem isolated (mmhash : Key → Int → Nat) (rand : Graph → Nat → Nat) (fuel : Nat)
    (calls : List (Graph × Action)) (separate : Separate mmhash rand fuel calls) :
    (∀ w out, together mmhash rand fuel calls = some (w, out) → ∀ i,
      ∃ s, alone mmhash rand fuel i (Calls.of i calls) = some (s, Calls.of i out)) ∧
    ((∀ i, (alone mmhash rand fuel i (Calls.of i calls)).isSome) →
      (together mmhash rand fuel calls).isSome) := by
  have step : ∀ s w i a, Joined s w →
      Undisturbed ⟨mmhash, rand i⟩ (s i.other).1.sblacklist (s i).1 (s i).2 a →
      Option.Rel (fun r r' => r'.2 = r.2 ∧ Joined (Function.update s i r.1) r'.1)
        (own mmhash rand fuel i a (s i)) (shared mmhash rand fuel i a w) := by
    intro s w i a joined undisturbed
    obtain ⟨shares, same⟩ := joined.view i
    have met := perform_agree fuel shares undisturbed
    rw [Prod.mk.eta] at met
    have view : w.view i = ((w.view i).1, (s i).2) := by rw [← same]
    rw [shared, own, own, view]
    generalize Action.perform ⟨mmhash, rand i⟩ fuel a (s i) = r₀ at met
    generalize Action.perform ⟨mmhash, rand i⟩ fuel a ((w.view i).1, (s i).2) = r at met
    cases met with
    | none => exact .none
    | some agree => exact .some ⟨agree.1, joined.put agree.2⟩
  constructor
  · intro w out done i
    exact Calls.run_alone step joined_start separate done i
  · intro ends
    exact Calls.run_together step joined_start separate ends

/-- The first graph has denylisted 1 → 9 when the second one sets to work on source 2. -/
def turns : List (Graph × Action) :=
  [(.hole, .construct 4 2 0 221), (.hole2, .construct 4 2 0 221)] ++
    (List.range 17).map (fun k : Nat => (.hole, .insert ⟨1, k + 1⟩)) ++
    (List.range 17).map (fun k : Nat => (.hole2, .insert ⟨2, k + 1⟩)) ++
    [(.hole, .query ⟨1, 9⟩), (.hole2, .query ⟨2, 9⟩), (.hole2, .query ⟨2, 30⟩), (.hole2, .del ⟨2, 3⟩),
      (.hole, .getNeighbors 1), (.hole, .del ⟨1, 9⟩), (.hole2, .getNeighbors 2), (.hole, .query ⟨1, 9⟩)]

theorem isolated_two :
    (together (fun _ _ => 0) (fun _ _ => 0) 1 turns).isSome ∧
      ∀ w out, together (fun _ _ => 0) (fun _ _ => 0) 1 turns = some (w, out) → ∀ i,
        ∃ s, alone (fun _ _ => 0) (fun _ _ => 0) 1 i (Calls.of i turns) = some (s, Calls.of i out) := by
  have apart : Calls.Each (own (fun _ _ => 0) (fun _ _ => 0) 1)
      (fun s i a => a.Apart ⟨fun _ _ => 0, fun _ => 0⟩ (s i.other).1.sblacklist (s i).1 (s i).2)
      (fun i => World.start.view i) turns := by
    decide +kernel
  obtain ⟨same, ends⟩ := isolated (fun _ _ => 0) (fun _ _ => 0) 1 turns
    (apart.mono fun _ _ _ apart => apart.undisturbed)
  refine ⟨ends fun i => ?_, same⟩
  cases i <;> decide +kernel

section Interference

/-- Seventeen destinations of one source which all collide: an S-CHT of 4 and 2
    buckets denylists the ninth of them. -/
def crowd (i : Graph) : List (Graph × Action) :=
  (List.range 17).map fun k => (i, .insert ⟨1, k + 1⟩)

/-- The second graph is constructed when the first one has a denylisted edge. -/
def constructedLate : List (Graph × Action) :=
  (.hole, .construct 4 2 0 221) :: crowd .hole ++ [(.hole2, .construct 4 2 0 221), (.hole, .query ⟨1, 9⟩)]

/-- Both graphs have S-CHTs for a source, and one has a denylisted edge. -/
def sameSource : List (Graph × Action) :=
  (.hole2, .construct 4 2 0 221) :: (.hole, .construct 4 2 0 221) :: crowd .hole2 ++
    ((List.range 7).map fun k => (.hole, .insert ⟨1, k + 101⟩)) ++ [(.hole, .query ⟨1, 9⟩)]

/-- What the last call on `hole` has returned, in the run of all calls and in
    the run of its own. -/
def lastTogether (calls : List (Graph × Action)) : Option Int :=
  (together (fun _ _ => 0) (fun _ _ => 0) 1 calls).bind fun r =>
    ((Calls.of .hole r.2).map Answer.ret).getLast?

def lastAlone (calls : List (Graph × Action)) : Option Int :=
  (alone (fun _ _ => 0) (fun _ _ => 0) 1 .hole (Calls.of .hole calls)).bind fun r =>
    (r.2.map Answer.ret).getLast?

/-- A constructor takes the denylisted edges of the other graph, and a graph
    finds a denylisted edge of the other one. -/
theorem graphs_interfere :
    (lastTogether constructedLate = some 0 ∧ lastAlone constructedLate = some blist) ∧
      lastTogether sameSource = some blist ∧ lastAlone sameSource = some 0 := by
  decide +kernel

end Interference

end CuckooGraph
