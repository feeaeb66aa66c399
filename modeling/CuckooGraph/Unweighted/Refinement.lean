import CuckooGraph.Refinement
import CuckooGraph.Triangles
import CuckooGraph.Unweighted.Isolation
import CuckooGraph.Unweighted.Successors

/-! # A graph is a set of edges

Between two calls a graph stands for the set of the edges which were inserted and
not deleted since. All answers follow from this set: links, S-CHTs, denylists, kicks
and the contraction after deletions cannot be seen from outside.
-/

namespace CuckooGraph

open TwoLayer Holemerge

/-- What a graph is for. -/
def edgeSet : Calls.Spec (Finset Edge) Action Answer where
  effect
    | .construct _ _ _ _, _ => ∅
    | .insert e, S => insert e S
    | .del e, S => S.erase e
    | _, S => S
  answers
    | _, .construct _ _ _ _, .constructed => True
    | _, .insert _, .inserted done => done = true
    | S, .del e, .deleted ret => ret = 1 ∨ ret = -1 ↔ e ∈ S
    | S, .query e, .queried ret => ret ≠ 0 ↔ e ∈ S
    | S, .querySuccessor src buf U, .successors written =>
        Lists S src (written.1.slice U written.2) ∧ ∀ i, i < U ∨ U + written.2 ≤ i → written.1 i = buf i
    | S, .getNeighbors src, .neighbors v => Lists S src (v.map Prod.fst) ∧ ∀ n ∈ v, n.2 = 1
    | _, _, _ => False

/-- The ids are no marks of free cells, layers have buckets, and a deletion does not
    go wrong. -/
def Action.Clean (E : Env) (fuel : Nat) : Action → Memory Key × Holemerge Key → Prop
  | .construct l1 l2 _ _, _ => 2 ≤ l2 ∧ l2 ≤ l1
  | .insert e, _ => e.src ≠ 0 ∧ e.dst ≠ 0
  | .del e, (m, h) => (e.src ≠ 0 ∧ e.dst ≠ 0) ∧ LinksEven E m h e ∧ Guard.counts.del E m h e ∧
      Guard.counts.Passes E fuel (mainDel E m h e).1 (mainDel E m h e).2.1
  | .query e, _ => e.src ≠ 0 ∧ e.dst ≠ 0
  | _, _ => True

instance (E : Env) (fuel : Nat) (a : Action) (s : Memory Key × Holemerge Key) : Decidable (a.Clean E fuel s) :=
  match a, s with
  | .construct _ _ _ _, _ => inferInstanceAs (Decidable (_ ∧ _))
  | .insert _, _ => inferInstanceAs (Decidable (_ ∧ _))
  | .del e, (m, h) => inferInstanceAs (Decidable ((e.src ≠ 0 ∧ e.dst ≠ 0) ∧ LinksEven E m h e ∧
      Guard.counts.del E m h e ∧ Guard.counts.Passes E fuel _ _))
  | .query _, _ => inferInstanceAs (Decidable (_ ∧ _))
  | .querySuccessor _ _ _, _ => isTrue trivial
  | .getNeighbors _, _ => isTrue trivial

/-- A state which stands for a set of edges. -/
structure Represents (E : Env) (s : Memory Key × Holemerge Key) (S : Finset Edge) : Prop where
  whole : Whole E s.1 s.2
  stored : ∀ x d, d ∈ entries E s.1 s.2 x ↔ ⟨x, d⟩ ∈ S

variable {E : Env} {s s' : Memory Key × Holemerge Key} {S : Finset Edge} {e : Edge} {fuel : Nat}

/-- A new graph is empty, whatever other graphs have left in the heap. -/
theorem represents_new {m : Memory Key} (sound : m.fault = false) {l1 l2 : Nat} (sizes : 2 ≤ l2 ∧ l2 ≤ l1) (s1 s2 : Int) :
    Represents E ({ m with sblacklist := [] }, fresh l1 l2 s1 s2) ∅ where
  whole := by
    have start : Whole E Memory.initial (fresh l1 l2 s1 s2 : Holemerge Key) := fresh_whole sizes
    refine ⟨⟨start.grounded.framed, sound, ?_, start.grounded.apart, by simp⟩,
      ⟨start.homed.srcs, start.homed.tallied, by simp, ?_⟩, ⟨?_, ?_⟩⟩
    all_goals
      intro s hs
      simp [fresh_slots] at hs
  stored := fun x d => by simp [entries, fresh_slots, itemsOf]

theorem represents_start {l1 l2 : Nat} (sizes : 2 ≤ l2 ∧ l2 ≤ l1) (s1 s2 : Int) :
    Represents E (Memory.initial, fresh l1 l2 s1 s2) ∅ := represents_new (m := Memory.initial) rfl sizes s1 s2

namespace Represents

variable (rep : Represents E s S)
include rep

theorem insert (known : e.src ≠ 0) (hd : e.dst ≠ 0) :
    Represents E ((insert E s.1 s.2 e).1, (insert E s.1 s.2 e).2.1) (Insert.insert e S) where
  whole := rep.whole.insert known hd
  stored := fun x d => by
    rw [rep.whole.mem_insert known hd ⟨x, d⟩, rep.stored, Finset.mem_insert]
    tauto

theorem mainDel (known : e.src ≠ 0) (hd : e.dst ≠ 0) (even : LinksEven E s.1 s.2 e)
    (safe : Guard.counts.del E s.1 s.2 e) :
    Represents E ((mainDel E s.1 s.2 e).1, (mainDel E s.1 s.2 e).2.1) (S.erase e) ∧
      ((mainDel E s.1 s.2 e).2.2 = 1 ∨ (mainDel E s.1 s.2 e).2.2 = -1 ↔ e ∈ S) := by
  have w := rep.whole
  obtain ⟨mine, ret, others⟩ :=
    mainDel_entries w.grounded known hd even safe.1 w.homed safe.2.1 w.exact safe.2.2
  refine ⟨⟨w.mainDel known hd even safe, fun x d => ?_⟩, ret.trans (rep.stored e.src e.dst)⟩
  rw [Finset.mem_erase]
  by_cases same : x = e.src
  · subst same
    rw [mine, (w.nodup e.src).mem_erase_iff, rep.stored]
    refine and_congr_left fun _ => not_congr ⟨fun equal => by rw [equal], fun equal => congrArg Edge.dst equal⟩
  · rw [others x same, rep.stored]
    exact (and_iff_right fun equal => same (congrArg Edge.src equal)).symm

/-- `post_del` moves entries about, but keeps them. -/
theorem postDel {m' : Memory Key} {h' : Holemerge Key} (passes : Guard.counts.Passes E fuel s.1 s.2)
    (done : postDel E fuel s.1 s.2 = some (m', h')) : Represents E (m', h') S := by
  have kept : Whole E m' h' ∧ ∀ x, entries E m' h' x = entries E s.1 s.2 x :=
    postDel_inv (I := fun m h => Whole E m h ∧ ∀ x, entries E m h x = entries E s.1 s.2 x)
      (fun m h inv => ⟨inv.1.redrawEdge, fun x =>
        (redrawEdge_entries inv.1.grounded inv.1.homed inv.1.exact x).trans (inv.2 x)⟩)
      (fun m h fits inv => ⟨inv.1.redrawSlot fits, fun x =>
        (redrawSlot_entries inv.1.grounded fits x).trans (inv.2 x)⟩)
      passes ⟨rep.whole, fun _ => rfl⟩ done
  refine ⟨kept.1, fun x d => ?_⟩
  rw [kept.2 x]
  exact rep.stored x d

/-- Both enumerations list the destinations of the set. -/
theorem listed (src : Key) : ∃ ids, Lists S src ids ∧
    (∀ buf U, s.2.querySuccessor E s.1 src buf U = buf.write U ids) ∧ s.2.getNeighbors E s.1 src = ids.map (·, 1) := by
  obtain ⟨ids, stored, written, neighbors⟩ := rep.whole.successors src
  refine ⟨ids, ⟨?_, fun d => ?_⟩, written, neighbors⟩
  · rw [← Multiset.coe_nodup, stored]
    exact rep.whole.nodup src
  · rw [← Multiset.mem_coe, stored]
    exact rep.stored src d

/-- One call. -/
theorem perform {a : Action} {b : Answer} (clean : a.Clean E fuel s) (done : a.perform E fuel s = some (s', b)) :
    Represents E s' (edgeSet.effect a S) ∧ edgeSet.answers S a b := by
  cases a with
  | construct l1 l2 s1 s2 =>
      cases done
      exact ⟨represents_new rep.whole.grounded.sound clean s1 s2, trivial⟩
  | insert e =>
      cases done
      have returned : (Holemerge.insert E s.1 s.2 e).2.2 = true := insertArc_true rep.whole.grounded.framed
      exact ⟨rep.insert clean.1 clean.2, returned⟩
  | del e =>
      obtain ⟨⟨known, hd⟩, even, safe, passes⟩ := clean
      obtain ⟨erased, ret⟩ := rep.mainDel known hd even safe
      simp only [Action.perform, Holemerge.del, Option.map_eq_some_iff, Prod.mk.injEq] at done
      obtain ⟨⟨m', h', r⟩, ⟨⟨m1, h1⟩, redrawn, rfl, rfl, rfl⟩, rfl, rfl⟩ := done
      exact ⟨erased.postDel passes redrawn, ret⟩
  | query e =>
      cases done
      refine ⟨rep, (rep.whole.query_iff clean.1 clean.2).trans ?_⟩
      exact rep.stored e.src e.dst
  | querySuccessor src buf U =>
      cases done
      obtain ⟨ids, lists, written, -⟩ := rep.listed src
      obtain ⟨count, slice, kept⟩ := Buffer.write_spec buf U ids
      refine ⟨rep, ?_⟩
      simp only [edgeSet, written, count, slice]
      exact ⟨lists, kept⟩
  | getNeighbors src =>
      cases done
      obtain ⟨ids, lists, -, neighbors⟩ := rep.listed src
      refine ⟨rep, ?_⟩
      simp only [edgeSet, neighbors, List.map_map, Function.comp_def, List.map_id']
      refine ⟨lists, fun n hn => ?_⟩
      obtain ⟨d, -, rfl⟩ := List.mem_map.mp hn
      rfl

/-- All calls of a run, one after the other. -/
theorem run {calls : List Action} (clean : Calls.Allowed (Action.perform E fuel) (Action.Clean E fuel) calls s)
    {answers : List Answer} (done : Calls.run (Action.perform E fuel) calls s = some (s', answers)) :
    ∃ S', Represents E s' S' ∧ edgeSet.Right S calls answers S' :=
  Calls.run_refines (fun _ _ _ _ _ rep clean done => rep.perform clean done) rep clean done

end Represents

/-- In every run whose deletions do not go wrong all answers are those of a set of
    edges, and the state reached stands for this set. -/
theorem run_refines_edgeSet (E : Env) (fuel : Nat) {l1 l2 : Nat} (sizes : 2 ≤ l2 ∧ l2 ≤ l1) (s1 s2 : Int)
    {calls : List Action} (clean : Calls.Allowed (Action.perform E fuel) (Action.Clean E fuel) calls
      (Memory.initial, fresh l1 l2 s1 s2)) {answers : List Answer}
    (done : Calls.run (Action.perform E fuel) calls (Memory.initial, fresh l1 l2 s1 s2) = some (s', answers)) :
    ∃ S, edgeSet.Right ∅ calls answers S ∧ Represents E s' S := by
  obtain ⟨S, represents, right⟩ := (represents_start sizes s1 s2).run clean done
  exact ⟨S, right, represents⟩

/-- What is left after such a run is searched for triangles as a set of edges. -/
theorem run_triangles (E : Env) (fuel : Nat) {l1 l2 : Nat} (sizes : 2 ≤ l2 ∧ l2 ≤ l1) (s1 s2 : Int)
    {calls : List Action} (clean : Calls.Allowed (Action.perform E fuel) (Action.Clean E fuel) calls
      (Memory.initial, fresh l1 l2 s1 s2)) {answers : List Answer}
    (done : Calls.run (Action.perform E fuel) calls (Memory.initial, fresh l1 l2 s1 s2) = some (s', answers))
    (src : Key) (b1 b2 : Buffer) :
    s'.2.queryTriangles E s'.1 src b1 b2 = triangles (calls.foldl (fun S a => edgeSet.effect a S) ∅).toList src := by
  obtain ⟨S, rep, right⟩ := (represents_start sizes s1 s2).run clean done
  have stored : ∀ x d, d ∈ entries E s'.1 s'.2 x ↔ ⟨x, d⟩ ∈ S.toList := fun x d =>
    (rep.stored x d).trans Finset.mem_toList.symm
  rw [← right.final]
  refine rep.whole.triangles stored (fun e he => ?_) src b1 b2
  have inside := (stored e.src e.dst).mpr he
  obtain ⟨s, hs, same, -⟩ := mem_entries.mp inside
  exact ⟨same ▸ rep.whole.grounded.framed.slot_src hs, entries_known rep.whole.grounded inside⟩

def Call.action : Call → Action
  | insert e => .insert e
  | del e => .del e

/-- Three links, three S-CHTs and an edge in `sblacklist`; then the triangle 1 → 7 → 2 → 1 is
    completed, an S-CHT is poured into the others, and the edges are asked for. -/
def contracting : List Action :=
  thinCalls.map Call.action ++ [.insert ⟨7, 2⟩, .insert ⟨2, 1⟩, .del ⟨1, 149⟩, .query ⟨1, 216⟩, .query ⟨1, 149⟩,
    .querySuccessor 1 (fun _ => 0) 0, .getNeighbors 7]

theorem contracting_clean : Calls.Allowed (Action.perform spread 1) (Action.Clean spread 1) contracting
    (Memory.initial, fresh bl1 bl2 0 221) := by
  decide +kernel

theorem contracting_ends : ∃ s' answers, Calls.run (Action.perform spread 1) contracting
    (Memory.initial, fresh bl1 bl2 0 221) = some (s', answers) ∧ s'.1.sblacklist = [⟨1, 216⟩] ∧
      s'.2.queryTriangles spread s'.1 1 (fun _ => 0) (fun _ => 0) = 1 := by
  have ends : ∃ r ∈ Calls.run (Action.perform spread 1) contracting (Memory.initial, fresh bl1 bl2 0 221),
      r.1.1.sblacklist = [⟨1, 216⟩] ∧ r.1.2.queryTriangles spread r.1.1 1 (fun _ => 0) (fun _ => 0) = 1 := by
    decide +kernel
  obtain ⟨r, done, denied, counted⟩ := ends
  exact ⟨r.1, r.2, done, denied, counted⟩

theorem run_refines_edgeSet_contracting : ∃ s' : Memory Key × Holemerge Key, ∃ answers S,
    edgeSet.Right ∅ contracting answers S ∧ Represents spread s' S ∧ s'.1.sblacklist = [⟨1, 216⟩] := by
  obtain ⟨s', answers, done, denied, -⟩ := contracting_ends
  obtain ⟨S, right, represents⟩ := run_refines_edgeSet spread 1 default_sizes 0 221 contracting_clean done
  exact ⟨s', answers, S, right, represents, denied⟩

theorem run_triangles_contracting :
    triangles (contracting.foldl (fun S a => edgeSet.effect a S) ∅).toList 1 = 1 := by
  obtain ⟨s', answers, done, -, counted⟩ := contracting_ends
  exact (run_triangles spread 1 default_sizes 0 221 contracting_clean done 1 (fun _ => 0) (fun _ => 0)).symm.trans counted

end CuckooGraph
