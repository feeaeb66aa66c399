import CuckooGraph.Unweighted.PostDel

/-! # Runs

A run is a sequence of completed calls on a fresh graph. A `Guard` restricts it
to deletions which do not go wrong in one of four ways.
-/

namespace CuckooGraph

open TwoLayer Holemerge

/-- What is asked of the state before a deletion, and before a pass of the
    second loop of `post_del`. -/
structure Guard where
  del : Env → Memory Key → Holemerge Key → Edge → Prop
  pass : Memory Key × Holemerge Key → Prop

/-- The passes of `post_del` meet the guard. -/
def Guard.Passes (G : Guard) (E : Env) (fuel : Nat) (m : Memory Key) (h : Holemerge Key) : Prop :=
  ∀ s, drainEdges E fuel m h = some s →
    Loop.Each slotsOver (fun s => redrawSlot E s.1 s.2) G.pass fuel s

/-- The states between two calls of a graph which was made with `(l1, l2)` buckets. -/
inductive ReachedFrom (G : Guard) (E : Env) (l1 l2 : Nat) (s1 s2 : Int) : Memory Key → Holemerge Key → Prop
  | fresh : ReachedFrom G E l1 l2 s1 s2 Memory.initial (fresh l1 l2 s1 s2)
  | insert {m : Memory Key} {h : Holemerge Key} (e : Edge) (before : ReachedFrom G E l1 l2 s1 s2 m h)
      (known : e.src ≠ 0) (hd : e.dst ≠ 0) :
      ReachedFrom G E l1 l2 s1 s2 (insert E m h e).1 (insert E m h e).2.1
  | del {m m' : Memory Key} {h h' : Holemerge Key} (e : Edge) (fuel : Nat) {ret : Int}
      (before : ReachedFrom G E l1 l2 s1 s2 m h) (known : e.src ≠ 0) (hd : e.dst ≠ 0)
      (safe : G.del E m h e) (passes : G.Passes E fuel (mainDel E m h e).1 (mainDel E m h e).2.1)
      (done : Holemerge.del E fuel m h e = some (m', h', ret)) : ReachedFrom G E l1 l2 s1 s2 m' h'

/-- The states of a graph of the default sizes. -/
abbrev Reached (G : Guard) (E : Env) (s1 s2 : Int) : Memory Key → Holemerge Key → Prop :=
  ReachedFrom G E bl1 bl2 s1 s2

namespace Guard

/-- No restriction. -/
def all : Guard := ⟨fun _ _ _ _ => True, fun _ => True⟩

/-- No pour of links fails. -/
def shape : Guard := ⟨LinksSafe, fun _ => True⟩

/-- Neither do husks arise in links, nor does `post_del` lose a `bSlot`. -/
def homes : Guard := ⟨fun E m h e => LinksSafe E m h e ∧ NoHusk E m h e, Fits⟩

/-- No pour of S-CHTs fails either. -/
def counts : Guard :=
  ⟨fun E m h e => LinksSafe E m h e ∧ NoHusk E m h e ∧ SlotsSafe E m h e, Fits⟩

/-- Husks arise nowhere. -/
def clean : Guard :=
  ⟨fun E m h e => LinksSafe E m h e ∧ SlotsSafe E m h e ∧
    ∀ loc s, h.locate E e.src = some (loc, s) → ¬ s.Husk m e, Fits⟩

variable {E : Env} {m : Memory Key} {h : Holemerge Key} {e : Edge}

instance : Decidable (clean.del E m h e) :=
  have : Decidable (∀ loc s, h.locate E e.src = some (loc, s) → ¬ s.Husk m e) :=
    decidable_of_iff (∀ place ∈ h.locate E e.src, ¬ place.2.Husk m e)
      ⟨fun all loc s found => all (loc, s) found, fun all place found => all place.1 place.2 found⟩
  inferInstanceAs (Decidable (LinksSafe E m h e ∧ SlotsSafe E m h e ∧ _))

instance : Decidable (counts.del E m h e) := inferInstanceAs (Decidable (LinksSafe E m h e ∧ NoHusk E m h e ∧ _))

instance : DecidablePred clean.pass := inferInstanceAs (DecidablePred Fits)

instance : DecidablePred counts.pass := inferInstanceAs (DecidablePred Fits)

instance {G : Guard} [DecidablePred G.pass] {fuel : Nat} : Decidable (G.Passes E fuel m h) :=
  inferInstanceAs (Decidable (∀ s ∈ drainEdges E fuel m h,
    Loop.Each slotsOver (fun s => redrawSlot E s.1 s.2) G.pass fuel s))

end Guard

theorem clean_counts {E : Env} {m : Memory Key} {h : Holemerge Key} {e : Edge}
    (clean : Guard.clean.del E m h e) : Guard.counts.del E m h e := by
  obtain ⟨links, slots, solid⟩ := clean
  exact ⟨links, fun i flag ha j s found => solid _ s found, slots⟩

section Play

/-- A call that changes a graph. -/
inductive Call where
  | insert (e : Edge)
  | del (e : Edge)

def Call.edge : Call → Edge
  | insert e => e
  | del e => e

variable (G : Guard) (E : Env) (fuel : Nat)

def Call.run (c : Call) (s : Memory Key × Holemerge Key) : Option (Memory Key × Holemerge Key) :=
  match c with
  | .insert e =>
      let (m, h, _) := Holemerge.insert E s.1 s.2 e
      some (m, h)
  | .del e => (Holemerge.del E fuel s.1 s.2 e).map fun (m, h, _) => (m, h)

/-- What a guard asks of a call. -/
def Call.Heeds (c : Call) (s : Memory Key × Holemerge Key) : Prop :=
  match c with
  | .insert _ => True
  | .del e => G.del E s.1 s.2 e ∧ G.Passes E fuel (mainDel E s.1 s.2 e).1 (mainDel E s.1 s.2 e).2.1

/-- A run as a function, `none` if a loop of `post_del` takes more than `fuel` passes. -/
def play (s : Memory Key × Holemerge Key) (calls : List Call) : Option (Memory Key × Holemerge Key) :=
  match calls with
  | [] => some s
  | c :: cs => (c.run E fuel s).bind fun s => play s cs

/-- Every call of a run is about ids other than 0 and meets the guard. -/
def Heeds : Memory Key × Holemerge Key → List Call → Prop
  | _, [] => True
  | s, c :: cs => (c.edge.src ≠ 0 ∧ c.edge.dst ≠ 0) ∧ c.Heeds G E fuel s ∧ ∀ s' ∈ c.run E fuel s, Heeds s' cs

variable {G E fuel}

section Checks

variable [∀ E m h e, Decidable (G.del E m h e)] [DecidablePred G.pass]

instance (c : Call) (s : Memory Key × Holemerge Key) : Decidable (c.Heeds G E fuel s) :=
  match c with
  | .insert _ => isTrue trivial
  | .del e => inferInstanceAs (Decidable (G.del E s.1 s.2 e ∧ G.Passes E fuel _ _))

instance decidableHeeds : ∀ (s : Memory Key × Holemerge Key) (calls : List Call), Decidable (Heeds G E fuel s calls)
  | _, [] => isTrue trivial
  | s, c :: cs =>
      have := fun s' => decidableHeeds s' cs
      inferInstanceAs (Decidable ((c.edge.src ≠ 0 ∧ c.edge.dst ≠ 0) ∧ c.Heeds G E fuel s ∧
        ∀ s' ∈ c.run E fuel s, Heeds G E fuel s' cs))

end Checks

/-- A run is not restricted by the guard which asks nothing. -/
theorem heeds_all {calls : List Call} (known : ∀ c ∈ calls, c.edge.src ≠ 0 ∧ c.edge.dst ≠ 0)
    (s : Memory Key × Holemerge Key) : Heeds Guard.all E fuel s calls := by
  induction calls generalizing s with
  | nil => trivial
  | cons c cs ih =>
      refine ⟨known c List.mem_cons_self, ?_, fun s' _ => ih (fun c hc => known c (List.mem_cons_of_mem _ hc)) s'⟩
      cases c with
      | insert e => trivial
      | del e => exact ⟨trivial, fun s _ => Loop.each_of_all (fun _ => trivial) fuel s⟩

theorem play_reached {l1 l2 : Nat} {s1 s2 : Int} {calls : List Call} {s s' : Memory Key × Holemerge Key}
    (heeds : Heeds G E fuel s calls) (before : ReachedFrom G E l1 l2 s1 s2 s.1 s.2)
    (done : play E fuel s calls = some s') : ReachedFrom G E l1 l2 s1 s2 s'.1 s'.2 := by
  induction calls generalizing s with
  | nil =>
      cases done
      exact before
  | cons c cs ih =>
      obtain ⟨mid, first, rest⟩ := Option.bind_eq_some_iff.mp done
      obtain ⟨⟨hs, hd⟩, here, later⟩ := heeds
      refine ih (later mid first) ?_ rest
      cases c with
      | insert e =>
          cases first
          exact .insert e before hs hd
      | del e =>
          obtain ⟨⟨m, h, ret⟩, deleted, rfl⟩ := Option.map_eq_some_iff.mp first
          exact .del e fuel before hs hd here.1 here.2 deleted

/-- The state after some calls on a fresh graph, if these come to an end. -/
def played (E : Env) (fuel : Nat) (s1 s2 : Int) (calls : List Call) : Memory Key × Holemerge Key :=
  (play E fuel (Memory.initial, fresh bl1 bl2 s1 s2) calls).getD (Memory.initial, fresh bl1 bl2 s1 s2)

theorem heeds_reached {s1 s2 : Int} {calls : List Call}
    (heeds : Heeds G E fuel (Memory.initial, fresh bl1 bl2 s1 s2) calls) :
    Reached G E s1 s2 (played E fuel s1 s2 calls).1 (played E fuel s1 s2 calls).2 := by
  unfold played
  cases done : play E fuel (Memory.initial, fresh bl1 bl2 s1 s2) calls with
  | none => exact .fresh
  | some s => exact play_reached heeds .fresh done

theorem played_reached (E : Env) (fuel : Nat) (s1 s2 : Int) {calls : List Call}
    (known : ∀ c ∈ calls, c.edge.src ≠ 0 ∧ c.edge.dst ≠ 0) :
    Reached Guard.all E s1 s2 (played E fuel s1 s2 calls).1 (played E fuel s1 s2 calls).2 :=
  heeds_reached (heeds_all known _)

end Play

section Made

variable {E : Env} {m : Memory Key} {h : Holemerge Key} {e : Edge}

namespace Holemerge

theorem made_contract : (contract E m h).2.made = h.made := by
  unfold contract
  repeat' split
  all_goals rfl

theorem made_uncount (i : Nat) : (h.uncount i).made = h.made := by
  unfold uncount
  split <;> rfl

theorem made_mainDel : (mainDel E m h e).2.1.made = h.made := by
  unfold mainDel
  split
  · rfl
  · dsimp only
    repeat' split
    · exact made_setAt _ _
    · exact made_contract.trans ((made_uncount _).trans (made_setAt _ _))
    · exact made_setAt _ _
  · dsimp only
    repeat' split
    · exact made_setAt _ _
    · rfl
    · exact made_setAt _ _

theorem made_redrawEdge : (redrawEdge E m h).2.made = h.made := by
  unfold redrawEdge
  split
  · exact made_insertArc
  · rfl

theorem made_redrawSlot : (redrawSlot E m h).2.made = h.made := by
  unfold redrawSlot
  split
  · split <;> rfl
  · rfl
end Holemerge

end Made

section Induct

variable {l1 l2 : Nat} {G : Guard} {E : Env} {s1 s2 : Int} {m m' : Memory Key} {h h' : Holemerge Key}
  {I : Memory Key → Holemerge Key → Prop}

/-- What the two loops keep, `post_del` keeps. -/
theorem postDel_inv (edge : ∀ m h, I m h → I (redrawEdge E m h).1 (redrawEdge E m h).2)
    (slot : ∀ m h, G.pass (m, h) → I m h → I (redrawSlot E m h).1 (redrawSlot E m h).2)
    {fuel : Nat} (passes : G.Passes E fuel m h) (before : I m h)
    (done : postDel E fuel m h = some (m', h')) : I m' h' := by
  unfold postDel at done
  split at done
  · rename_i m1 h1 drained
    have mid : I m1 h1 := Loop.run_inv (I := fun s => I s.1 s.2) (fun s _ (_ : True) => edge s.1 s.2)
      (Loop.each_of_all (fun _ => trivial) fuel _) before drained
    exact Loop.run_inv (I := fun s => I s.1 s.2) (fun s _ => slot s.1 s.2) (passes _ drained) mid done
  · cases done

/-- An invariant of the calls is one of the runs. -/
theorem ReachedFrom.inv (start : I Memory.initial (Holemerge.fresh l1 l2 s1 s2))
    (insert : ∀ m h e, e.src ≠ 0 → e.dst ≠ 0 → I m h →
      I (Holemerge.insert E m h e).1 (Holemerge.insert E m h e).2.1)
    (main : ∀ m h e, h.made = ((l1, l2), s1, s2) → e.src ≠ 0 → e.dst ≠ 0 → G.del E m h e → I m h →
      I (mainDel E m h e).1 (mainDel E m h e).2.1)
    (edge : ∀ m h, I m h → I (redrawEdge E m h).1 (redrawEdge E m h).2)
    (slot : ∀ m h, G.pass (m, h) → I m h → I (redrawSlot E m h).1 (redrawSlot E m h).2)
    (reached : ReachedFrom G E l1 l2 s1 s2 m h) : h.made = ((l1, l2), s1, s2) ∧ I m h := by
  induction reached with
  | fresh => exact ⟨rfl, start⟩
  | insert e _ known hd ih =>
      obtain ⟨made, inv⟩ := ih
      exact ⟨made_insertArc.trans made, insert _ _ e known hd inv⟩
  | @del m _ h _ e fuel ret _ known hd safe passes done ih =>
      obtain ⟨made, inv⟩ := ih
      simp only [Holemerge.del, Option.map_eq_some_iff, Prod.mk.injEq] at done
      obtain ⟨⟨m1, h1⟩, done, rfl, rfl, -⟩ := done
      exact postDel_inv (I := fun m h => h.made = ((l1, l2), s1, s2) ∧ I m h)
        (fun m h ⟨made, inv⟩ => ⟨made_redrawEdge.trans made, edge m h inv⟩)
        (fun m h pass ⟨made, inv⟩ => ⟨made_redrawSlot.trans made, slot m h pass inv⟩) passes
        ⟨made_mainDel.trans made, main _ _ e made known hd safe inv⟩ done

end Induct

section Runs

/-- The edges 1 → 1, .., 1 → 17 of a source, all but 1 → 9 deleted, then 1 → 9,
    which was in `sblacklist`: a husk, beside the `bSlot` of source 2. -/
def huskCalls : List Call :=
  (List.range 17).map (fun i : Nat => .insert ⟨1, i + 1⟩) ++ [.insert ⟨2, 1⟩] ++
    ((List.range 17).filter (· ≠ 8)).map (fun i : Nat => .del ⟨1, i + 1⟩) ++ [.del ⟨1, 9⟩]

/-- Layers which take what comes one after the other. -/
def spread : Env := ⟨fun k s => if s = 0 then k.toNat else k.toNat / 4, fun _ => 0⟩

/-- 70 sources in three links, the first of them with three S-CHTs and one edge in
    `sblacklist`. Its S-CHTs are thinned until they hold 34 destinations. -/
def thinCalls : List Call :=
  (List.range 70).map (fun i : Nat => .insert ⟨i + 1, 7⟩) ++
    (List.range 66).map (fun i : Nat => .insert ⟨1, i + 100⟩) ++
    (List.range 17).map (fun i : Nat => .insert ⟨1, 2 * i + 200⟩) ++
    (List.range 49).map (fun i : Nat => .del ⟨1, i + 100⟩)

/-- One more deletion pours an S-CHT into the others; then the links are thinned
    until one of them is poured. -/
def pourCalls : List Call :=
  thinCalls ++ [.del ⟨1, 149⟩] ++ (List.range 37).map (fun i : Nat => .del ⟨i + 2, 7⟩)

theorem thin_reached : Reached Guard.clean spread 0 221 (played spread 1 0 221 thinCalls).1
    (played spread 1 0 221 thinCalls).2 :=
  heeds_reached (by decide +kernel)

/-- What stands before the deletion of 1 → 149: three S-CHTs, and an entry in `sblacklist`. -/
theorem thin_state :
    let s := played spread 1 0 221 thinCalls
    s.1.sblacklist = [⟨1, 216⟩] ∧ (s.2.locate spread 1).map (fun p => p.2.addrs.length) = some 3 ∧
      Guard.clean.del spread s.1 s.2 ⟨1, 149⟩ ∧ s.2.query spread s.1 ⟨1, 149⟩ ≠ 0 ∧
      s.2.query spread s.1 ⟨1, 216⟩ ≠ 0 ∧ s.2.query spread s.1 ⟨1, 165⟩ ≠ 0 := by
  decide +kernel

theorem pour_reached : Reached Guard.clean spread 0 221 (played spread 1 0 221 pourCalls).1
    (played spread 1 0 221 pourCalls).2 :=
  heeds_reached (by decide +kernel)

/-- Two S-CHTs and two links are left. -/
theorem pour_state :
    let s := played spread 1 0 221 pourCalls
    s.1.sblacklist = [⟨1, 216⟩] ∧ (s.2.locate spread 1).map (fun p => p.2.addrs.length) = some 2 ∧
      s.2.link.toList.map Table.num = [11, 22] := by
  decide +kernel

end Runs

section Layers

variable {G : Guard} {E : Env} {s1 s2 : Int} {m : Memory Key} {h : Holemerge Key}

/-- A run which meets a guard meets every weaker one. -/
theorem ReachedFrom.mono {G' : Guard} {l1 l2 : Nat} (del : ∀ m h e, G.del E m h e → G'.del E m h e)
    (pass : ∀ s, G.pass s → G'.pass s) (reached : ReachedFrom G E l1 l2 s1 s2 m h) :
    ReachedFrom G' E l1 l2 s1 s2 m h := by
  induction reached with
  | fresh => exact .fresh
  | insert e _ known hd ih => exact .insert e ih known hd
  | del e fuel _ known hd safe passes done ih =>
      exact .del e fuel ih known hd (del _ _ e safe)
        (fun s drained => (passes s drained).mono pass) done

theorem Reached.counts_of_clean (reached : Reached Guard.clean E s1 s2 m h) :
    Reached Guard.counts E s1 s2 m h := reached.mono (fun _ _ _ => clean_counts) fun _ => id

theorem Reached.homes_of_counts (reached : Reached Guard.counts E s1 s2 m h) :
    Reached Guard.homes E s1 s2 m h :=
  reached.mono (G := .counts) (fun _ _ _ safe => ⟨safe.1, safe.2.1⟩) fun _ => id

theorem Reached.shape_of_homes (reached : Reached Guard.homes E s1 s2 m h) :
    Reached Guard.shape E s1 s2 m h :=
  reached.mono (G := .homes) (fun _ _ _ safe => safe.1) fun _ _ => trivial

theorem Grounded.default_even {e : Edge} (g : Grounded E m h) (made : h.made = ((bl1, bl2), s1, s2)) :
    LinksEven E m h e := by
  have sizes : (h.ll1, h.ll2) = (bl1, bl2) := congrArg Prod.fst made
  exact g.framed.linksEven (Prod.mk.inj sizes)

/-- Every run without a bad pour of links is in shape. -/
theorem Reached.grounded (reached : Reached Guard.shape E s1 s2 m h) : Grounded E m h :=
  (reached.inv (fresh_grounded default_sizes)
    (fun _ _ _ known hd g => insertArc_grounded edgeOps_faithful g known hd)
    (fun _ _ _ made known hd safe g => mainDel_grounded g known hd (g.default_even made) safe)
    (fun _ _ g => redrawEdge_grounded g)
    (fun _ _ _ g => redrawSlot_grounded g)).2

theorem Reached.homed (reached : Reached Guard.homes E s1 s2 m h) : Grounded E m h ∧ Homed E m h :=
  (reached.inv (G := .homes) (I := fun m h => Grounded E m h ∧ Homed E m h)
    ⟨fresh_grounded default_sizes, fresh_homed⟩
    (fun _ _ _ known hd ⟨g, o⟩ =>
      ⟨insertArc_grounded edgeOps_faithful g known hd, insertArc_homed edgeOps_faithful g known hd o⟩)
    (fun _ _ _ made known hd ⟨links, plain⟩ ⟨g, o⟩ =>
      ⟨mainDel_grounded g known hd (g.default_even made) links,
        mainDel_homed g known hd (g.default_even made) links o plain⟩)
    (fun _ _ ⟨g, o⟩ => ⟨redrawEdge_grounded g, redrawEdge_homed g o⟩)
    (fun _ _ fits ⟨g, o⟩ => ⟨redrawSlot_grounded g, redrawSlot_homed g fits o⟩)).2

/-- The sizes and seeds of a graph are those it was made with. -/
theorem ReachedFrom.made {l1 l2 : Nat} (reached : ReachedFrom G E l1 l2 s1 s2 m h) :
    h.made = ((l1, l2), s1, s2) :=
  (reached.inv (I := fun _ _ => True) trivial (fun _ _ _ _ _ _ => trivial)
    (fun _ _ _ _ _ _ _ _ => trivial) (fun _ _ _ => trivial) fun _ _ _ _ => trivial).1

theorem Reached.even {e : Edge} (reached : Reached G E s1 s2 m h) (g : Grounded E m h) :
    LinksEven E m h e := g.default_even reached.made

theorem Whole.insert (w : Whole E m h) {e : Edge} (known : e.src ≠ 0) (hd : e.dst ≠ 0) :
    Whole E (insert E m h e).1 (insert E m h e).2.1 :=
  insertArc_whole edgeOps_faithful known hd w

theorem Whole.mainDel (w : Whole E m h) {e : Edge} (known : e.src ≠ 0) (hd : e.dst ≠ 0)
    (even : LinksEven E m h e) (safe : Guard.counts.del E m h e) : Whole E (mainDel E m h e).1 (mainDel E m h e).2.1 := by
  obtain ⟨links, plain, slots⟩ := safe
  exact ⟨mainDel_grounded w.grounded known hd even links,
    mainDel_homed w.grounded known hd even links w.homed plain,
    mainDel_exact w.grounded known hd even links w.homed plain w.exact slots⟩

theorem Whole.redrawEdge (w : Whole E m h) : Whole E (redrawEdge E m h).1 (redrawEdge E m h).2 :=
  ⟨redrawEdge_grounded w.grounded, redrawEdge_homed w.grounded w.homed,
    redrawEdge_exact w.grounded w.homed w.exact⟩

theorem Whole.redrawSlot (w : Whole E m h) (fits : Fits (m, h)) :
    Whole E (redrawSlot E m h).1 (redrawSlot E m h).2 :=
  ⟨redrawSlot_grounded w.grounded, redrawSlot_homed w.grounded fits w.homed,
    redrawSlot_exact w.grounded fits w.exact⟩

/-- Every run in which no deletion goes wrong stores each edge once. -/
theorem Reached.whole (reached : Reached Guard.counts E s1 s2 m h) : Whole E m h :=
  (reached.inv (fresh_whole default_sizes)
    (fun _ _ _ known hd w => w.insert known hd)
    (fun _ _ _ made known hd safe w => w.mainDel known hd (w.grounded.default_even made) safe)
    (fun _ _ w => w.redrawEdge)
    (fun _ _ fits w => w.redrawSlot fits)).2

end Layers

end CuckooGraph
