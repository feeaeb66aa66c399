import CuckooGraph.WindBell.Insert
import CuckooGraph.Graph.Successors

/-! # Successors and predecessors in the Wind-Bell matrix

The successors of an id are collected in the one or two rows of its hashes, the
predecessors in the columns. Every edge has one node, so that no id is listed
twice.
-/

namespace CuckooGraph

open TwoLayer Linked

namespace WindBell

namespace Chandelier

variable {ω : Type} (E : Env)

/-- What is picked of the nodes of a list, `none` if a freed node is reached or the
    list has more than `fuel` nodes. -/
def collect (heap : Heap (Chain ω)) (pick : Chain ω → Option Key) : Nat → Option Addr → Option (List Key)
  | _, none => some []
  | 0, some _ => none
  | fuel + 1, some a =>
      match heap.get a with
      | none => none
      | some n => (collect heap pick fuel n.pointerChand).map ((pick n).toList ++ ·)

/-- The lists of some cells in turn. -/
def collectIn (c : Chandelier ω) (pick : Chain ω → Option Key) (ps : List Place) : Option (List Key) :=
  (ps.mapM fun p => collect c.heap pick c.heap.objects.length (c.pointerHead p)).map List.flatten

/-- The rows or columns of an id. The first is passed over if both are the same. -/
def lines (seeds : List Int) (len : Nat) (key : Key) : List Nat :=
  let ra := seeds.map fun i => E.mmhash key i % len
  if ra.getD 0 0 = ra.getD 1 0 then ra.tail else ra

def querySuccessor (c : Chandelier ω) (src : Key) (buf : Buffer) (U : Nat) : Option (Buffer × Nat) :=
  (c.collectIn (fun n => if n.src = src then some n.dst else none)
    ((lines E rawseed c.len src).flatMap fun i => (List.range c.len).map fun j => (i, j))).map (buf.write U)

def queryPrecursor (c : Chandelier ω) (dst : Key) (buf : Buffer) (U : Nat) : Option (Buffer × Nat) :=
  (c.collectIn (fun n => if n.dst = dst then some n.src else none)
    ((lines E colseed c.len dst).flatMap fun i => (List.range c.len).map fun j => (j, i))).map (buf.write U)

/-- The loop over the rows, which `GetNeighbors` and `query_success` have too. -/
def successors (c : Chandelier ω) (src : Key) : Option (List Key) :=
  c.collectIn (fun n => if n.src = src then some n.dst else none)
    ((lines E rawseed c.len src).flatMap fun i => (List.range c.len).map fun j => (i, j))

/-- `Neighbor` is an id with a weight. -/
def getNeighbors (c : Chandelier ω) (src : Key) : Option (List (Key × Nat)) :=
  (c.successors E src).map (List.map (·, 1))

/-- A count is an `int`, as is an index of the array which takes the ids. -/
def querySuccess (c : Chandelier ω) (src : Key) : Option Nat := (c.successors E src).map List.length

variable {E} {c : Chandelier ω} {lists : Place → List Addr}

theorem collect_path {h : Heap (Chain ω)} {pick : Chain ω → Option Key} {p : Option Addr} {as : List Addr}
    {fuel : Nat} (path : Path Chain.pointerChand h p as) (enough : as.length ≤ fuel) :
    collect h pick fuel p = some (as.filterMap fun a => (h.get a).bind pick) := by
  induction as generalizing p fuel with
  | nil =>
      cases path
      cases fuel <;> rfl
  | cons a as ih =>
      obtain ⟨rfl, n, live, rest⟩ := path
      cases fuel with
      | zero => simp at enough
      | succ fuel =>
          have next := ih rest (by simpa using enough)
          simp only [collect, live, next, Option.map_some, List.filterMap_cons, Option.bind_some]
          cases pick n <;> rfl

theorem collectIn_lists (k : c.Consistent lists) (pick : Chain ω → Option Key) (ps : List Place) :
    c.collectIn pick ps = some ((ps.flatMap lists).filterMap fun a => (c.heap.get a).bind pick) := by
  induction ps with
  | nil => rfl
  | cons p ps ih =>
      have path := (k.listed p).path
      obtain ⟨rest, found, same⟩ := Option.map_eq_some_iff.mp ih
      simp only [collectIn, List.mapM_cons, collect_path path path.length_le, found, Option.bind_eq_bind,
        Option.bind_some, Option.pure_def, Option.map_some, List.flatten_cons, same, List.flatMap_cons,
        List.filterMap_append]

/-- Cells which include those of some edges, each of which is picked by one id. -/
theorem Sound.collectIn (s : c.Sound E lists) {ps : List Place} (nodup : ps.Nodup)
    {pick : Chain ω → Option Key} {edge : Key → Edge} (picks : ∀ n k, pick n = some k ↔ n.edge = edge k)
    (covered : ∀ k, cells E c.len (edge k) ⊆ ps) :
    ∃ ids, c.collectIn pick ps = some ids ∧ ids.Nodup ∧ ∀ k, k ∈ ids ↔ ∃ p a, c.Found lists (edge k) p a := by
  have picked : ∀ a k, (c.heap.get a).bind pick = some k ↔ ∃ w, item c.heap a = some (edge k, w) := by
    intro a k
    cases live : c.heap.get a with
    | none => simp [item, live]
    | some n => simp [item, live, picks]
  refine ⟨_, collectIn_lists s.consistent pick ps, ?_, fun k => ?_⟩
  · have addrs : (ps.flatMap lists).Nodup := by
      refine List.nodup_flatMap.mpr ⟨fun p _ => s.consistent.nodup p, nodup.imp fun other => ?_⟩
      exact fun a hp hq => other (s.consistent.apart _ _ a hp hq)
    refine List.pairwise_filterMap.mpr (addrs.imp_of_mem fun {a b} ha hb other => ?_)
    intro k here k' here' same
    subst same
    obtain ⟨p, -, ha⟩ := List.mem_flatMap.mp ha
    obtain ⟨q, -, hb⟩ := List.mem_flatMap.mp hb
    obtain ⟨w, here⟩ := (picked a k).mp here
    obtain ⟨w', here'⟩ := (picked b k).mp here'
    exact other (s.filed.once a b (edge k) w w' ⟨p, ha⟩ ⟨q, hb⟩ here here')
  · rw [List.mem_filterMap]
    constructor
    · rintro ⟨a, ha, here⟩
      obtain ⟨p, -, ha⟩ := List.mem_flatMap.mp ha
      exact ⟨p, a, ha, (picked a k).mp here⟩
    · rintro ⟨p, a, ha, w, here⟩
      have placed := covered k (s.filed.placed p a (edge k) w ha here)
      exact ⟨a, List.mem_flatMap.mpr ⟨p, placed, ha⟩, (picked a k).mpr ⟨w, here⟩⟩

theorem mem_lines {x y : Int} {len : Nat} {key : Key} (i : Nat) :
    i ∈ lines E [x, y] len key ↔ ∃ s ∈ [x, y], E.mmhash key s % len = i := by
  simp only [lines, List.map_cons, List.map_nil, List.getD_cons_zero, List.getD_cons_succ, List.tail_cons]
  split
  · rename_i same
    simp [same, eq_comm]
  · simp [eq_comm]

theorem nodup_lines (x y : Int) (len : Nat) (key : Key) : (lines E [x, y] len key).Nodup := by
  simp only [lines, List.map_cons, List.map_nil, List.getD_cons_zero, List.getD_cons_succ, List.tail_cons]
  split
  · exact List.nodup_singleton _
  · rename_i other
    simpa using other

/-- The cells of some rows, or columns. -/
theorem nodup_places {rows : List Nat} (nodup : rows.Nodup) (len : Nat) {place : Nat → Nat → Place}
    (inj : ∀ i j i' j', place i j = place i' j' → i = i' ∧ j = j') :
    (rows.flatMap fun i => (List.range len).map (place i)).Nodup := by
  refine List.nodup_flatMap.mpr ⟨fun i _ => List.nodup_range.map fun j j' same => (inj i j i j' same).2, ?_⟩
  refine nodup.imp fun other p hi hj => ?_
  simp only [List.mem_map] at hi hj
  obtain ⟨j, -, rfl⟩ := hi
  obtain ⟨j', -, same⟩ := hj
  exact other (inj _ _ _ _ same).1.symm

/-- The destinations listed are those of the edges held, each once. -/
theorem Sound.successors (s : c.Sound E lists) (positive : 0 < c.len) (src : Key) :
    ∃ ids : List Key, c.successors E src = some ids ∧ ids.Nodup ∧ ∀ d, d ∈ ids ↔ ∃ p a, c.Found lists ⟨src, d⟩ p a := by
  have nodup := nodup_places (nodup_lines (E := E) 0 221 c.len src) c.len fun i j i' j' => Prod.mk.inj
  have picks : ∀ (n : Chain ω) d, (if n.src = src then some n.dst else none) = some d ↔
      n.edge = ⟨src, d⟩ := by
    intro n d
    by_cases same : n.src = src <;> simp [Chain.edge, same]
  have covered : ∀ d, cells E c.len ⟨src, d⟩ ⊆
      (lines E rawseed c.len src).flatMap fun i => (List.range c.len).map fun j => (i, j) := by
    intro d p hp
    simp only [cells, List.mem_flatMap, List.mem_map] at hp ⊢
    obtain ⟨i, hi, j, -, rfl⟩ := hp
    exact ⟨_, (mem_lines _).mpr ⟨i, hi, rfl⟩, _, List.mem_range.mpr (Nat.mod_lt _ positive), rfl⟩
  exact s.collectIn nodup picks covered

theorem querySuccessor_eq {src : Key} {ids : List Key} (listed : c.successors E src = some ids) (buf : Buffer)
    (U : Nat) : c.querySuccessor E src buf U = some (buf.write U ids) :=
  congrArg (Option.map (buf.write U)) listed

theorem Sound.querySuccessor (s : c.Sound E lists) (positive : 0 < c.len) (src : Key) :
    ∃ ids : List Key, (∀ buf U, c.querySuccessor E src buf U = some (buf.write U ids)) ∧ ids.Nodup ∧
      ∀ d, d ∈ ids ↔ ∃ p a, c.Found lists ⟨src, d⟩ p a := by
  obtain ⟨ids, listed, exactly⟩ := s.successors positive src
  exact ⟨ids, querySuccessor_eq listed, exactly⟩

/-- The sources listed are those of the edges held, each once. -/
theorem Sound.queryPrecursor (s : c.Sound E lists) (positive : 0 < c.len) (dst : Key) :
    ∃ ids : List Key, (∀ buf U, c.queryPrecursor E dst buf U = some (buf.write U ids)) ∧ ids.Nodup ∧
      ∀ x, x ∈ ids ↔ ∃ p a, c.Found lists ⟨x, dst⟩ p a := by
  have nodup := nodup_places (nodup_lines (E := E) 0 13 c.len dst) c.len (fun i j i' j' same =>
    (Prod.mk.inj same).symm : ∀ i j i' j', ((j, i) : Place) = (j', i') → i = i' ∧ j = j')
  have picks : ∀ (n : Chain ω) x, (if n.dst = dst then some n.src else none) = some x ↔
      n.edge = ⟨x, dst⟩ := by
    intro n x
    by_cases same : n.dst = dst <;> simp [Chain.edge, same]
  have covered : ∀ x, cells E c.len ⟨x, dst⟩ ⊆
      (lines E colseed c.len dst).flatMap fun i => (List.range c.len).map fun j => (j, i) := by
    intro x p hp
    simp only [cells, List.mem_flatMap, List.mem_map] at hp ⊢
    obtain ⟨i, -, j, hj, rfl⟩ := hp
    exact ⟨_, (mem_lines _).mpr ⟨j, hj, rfl⟩, _, List.mem_range.mpr (Nat.mod_lt _ positive), rfl⟩
  obtain ⟨ids, collected, once, exactly⟩ := s.collectIn nodup picks covered
  exact ⟨ids, fun buf U => by rw [Chandelier.queryPrecursor, collected, Option.map_some], once, exactly⟩

end Chandelier

end WindBell

end CuckooGraph
