import CuckooGraph.Cliques
import CuckooGraph.Counting
import Mathlib.Data.List.Sort

/-! # The undirected graph of `GSketch`

Each node has a list which begins with the node and goes on with its neighbours.
`clean` sorts the nodes by degree and leaves on each list the nodes which come
later, and `countTriangle` joins the lists of the two ends of each edge.
-/

namespace CuckooGraph

/-- `hashvalue`: a node and the number of its names. -/
structure Hashvalue where
  key : Nat
  IDnum : Nat
  deriving DecidableEq

structure DegreeNode where
  h : Nat
  degree : Nat
  deriving DecidableEq

/-- The order in which `sort` leaves nodes of one degree is not determined. -/
structure DegreeSort where
  sort : List DegreeNode → List DegreeNode
  perm : ∀ l, (sort l).Perm l
  sorted : ∀ l, (sort l).Pairwise fun a b => a.degree ≤ b.degree

/-- `degree`, `index` and `idnums` are maps; a list of `sketch` is its first node and the rest. -/
structure GSketch where
  degree : List (Nat × Nat)
  index : Nat → Option Nat
  idnums : Nat → Nat
  sorted_nodes : List DegreeNode
  nodenum : Nat
  edge_num : Nat
  sketch : List (Nat × List Nat)

namespace GSketch

def new : GSketch := ⟨[], fun _ => none, fun _ => 0, [], 0, 0, []⟩

/-- `m[k] = v`. -/
def assign (m : List (Nat × Nat)) (k v : Nat) : List (Nat × Nat) :=
  if k ∈ m.map Prod.fst then m.map fun e => if e.1 = k then (k, v) else e
  else m.orderedInsert (fun e e' => e.1 ≤ e'.1) (k, v)

/-- `m[k]++`. -/
def increment (m : List (Nat × Nat)) (k : Nat) : List (Nat × Nat) := assign m k ((m.lookup k).getD 0 + 1)

def insert_node (g : GSketch) (h1 IDnum : Nat) : GSketch := { g with
  index := Function.update g.index h1 (some g.nodenum)
  degree := assign g.degree h1 0
  idnums := Function.update g.idnums h1 IDnum
  sketch := g.sketch ++ [(h1, [])]
  nodenum := g.nodenum + 1 }

/-- The walk along a list: it stops at `h2`, or links `h2` to the end. -/
def walk (h2 : Nat) : List Nat → List Nat × Bool
  | [] => ([h2], true)
  | h :: rest => if h = h2 then (h :: rest, false) else (h :: (walk h2 rest).1, (walk h2 rest).2)

/-- The same from the first node on. -/
def link (list : Nat × List Nat) (h2 : Nat) : (Nat × List Nat) × Bool :=
  if list.1 = h2 then (list, false) else ((list.1, (walk h2 list.2).1), (walk h2 list.2).2)

/-- One end of an edge. -/
def insert_end (g : GSketch) (h1 h2 : Nat) : GSketch :=
  let i := (g.index h1).getD 0
  match g.sketch[i]? with
  | some list =>
      { g with sketch := g.sketch.set i (link list h2).1, edge_num := g.edge_num + (link list h2).2.toNat }
  | none => g

def insert_edge (g : GSketch) (h1 h2 : Nat) : GSketch :=
  ({ g with degree := increment (increment g.degree h1) h2 }.insert_end h1 h2).insert_end h2 h1

/-- The place of each node in `sorted_nodes`. -/
def sequence (sorted_nodes : List DegreeNode) : Nat → Nat :=
  sorted_nodes.zipIdx.foldl (fun m e => Function.update m e.1.h e.2) fun _ => 0

/-- `sorted_nodes` after `clean`. -/
def sorted (std : DegreeSort) (g : GSketch) : List DegreeNode :=
  std.sort (g.sorted_nodes ++ g.degree.map fun e => ⟨e.1, e.2⟩)

/-- `sequence` in `clean`. -/
def rank (std : DegreeSort) (g : GSketch) : Nat → Nat := sequence ((g.sorted std).take g.nodenum)

/-- What `clean` leaves on a list: the nodes which come later than its first. -/
def later (std : DegreeSort) (g : GSketch) (list : Nat × List Nat) : List Nat :=
  list.2.filter fun h => ¬ g.rank std h ≤ g.rank std list.1

def clean (std : DegreeSort) (g : GSketch) : GSketch := { g with
  sorted_nodes := g.sorted std
  sketch := g.sketch.map fun list => (list.1, g.later std list)
  edge_num := g.edge_num - (g.sketch.map fun list => list.2.length - (g.later std list).length).sum }

def get_neighbors (g : GSketch) (h : Nat) : List Hashvalue :=
  match g.index h with
  | none => []
  | some i => (g.sketch[i]?.elim [] Prod.snd).map fun np => ⟨np, g.idnums np⟩

/-- `sort` by `mycomp`. -/
def byKey (hv : List Hashvalue) : List Hashvalue := hv.insertionSort fun a b => a.key ≤ b.key

/-- The join of two lists which are sorted by key. -/
def countjoin : List Hashvalue → List Hashvalue → Nat
  | [], _ => 0
  | _ :: _, [] => 0
  | a :: V1, b :: V2 =>
      if b.key < a.key then countjoin (a :: V1) V2
      else if b.key = a.key then a.IDnum + countjoin V1 V2
      else countjoin V1 (b :: V2)
termination_by V1 V2 => V1.length + V2.length

/-- `count += num1 * num2 * num3`, `none` if some number on the way is no `int`. -/
def addProduct (count num1 num2 num3 : Nat) : Option Nat :=
  if num3 < 2 ^ 31 ∧ num1 * num2 < 2 ^ 31 ∧ count + num1 * num2 * num3 < 2 ^ 31 then some (count + num1 * num2 * num3)
  else none

def countTriangle (g : GSketch) : Option Nat :=
  (g.sorted_nodes.take g.nodenum).foldlM (fun count node =>
    let set1 := byKey (g.get_neighbors node.h)
    set1.foldlM (fun count hv =>
      addProduct count (g.idnums node.h) hv.IDnum (countjoin set1 (byKey (g.get_neighbors hv.key)))) count) 0

section Lists

variable {l : List Nat} {h2 x : Nat}

theorem mem_walk : x ∈ (walk h2 l).1 ↔ x ∈ l ∨ x = h2 := by
  induction l with
  | nil => simp [walk]
  | cons h l ih =>
      unfold walk
      split
      · rename_i here
        subst here
        simp only [List.mem_cons]
        tauto
      · rw [List.mem_cons, ih, List.mem_cons, or_assoc]

theorem nodup_walk (nodup : l.Nodup) : (walk h2 l).1.Nodup := by
  induction l with
  | nil => exact List.nodup_singleton h2
  | cons h l ih =>
      obtain ⟨new, rest⟩ := List.nodup_cons.mp nodup
      unfold walk
      split
      · exact nodup
      · rename_i other
        refine List.nodup_cons.mpr ⟨fun here => ?_, ih rest⟩
        exact (mem_walk.mp here).elim new other

/-- A node is linked to the list of another node once. -/
theorem link_spec {list : Nat × List Nat} (nodup : list.2.Nodup) (h2 : Nat) :
    (link list h2).1.1 = list.1 ∧ (link list h2).1.2.Nodup ∧
      ∀ x, x ∈ (link list h2).1.2 ↔ x ∈ list.2 ∨ x = h2 ∧ list.1 ≠ h2 := by
  unfold link
  split
  · rename_i own
    exact ⟨rfl, nodup, fun x => by simp [own]⟩
  · rename_i other
    exact ⟨rfl, nodup_walk nodup, fun x => by simp [mem_walk, other]⟩

theorem assign_keys (m : List (Nat × Nat)) (k v : Nat) :
    ((assign m k v).map Prod.fst).Perm (if k ∈ m.map Prod.fst then m.map Prod.fst else k :: m.map Prod.fst) := by
  unfold assign
  split
  · refine List.Perm.of_eq ?_
    rw [List.map_map]
    refine List.map_congr_left fun e _ => ?_
    by_cases here : e.1 = k <;> simp [here]
  · exact (List.perm_orderedInsert _ _ _).map Prod.fst

theorem increment_keys {m : List (Nat × Nat)} {k : Nat} (known : k ∈ m.map Prod.fst) :
    ((increment m k).map Prod.fst).Perm (m.map Prod.fst) := by
  have keys := assign_keys m k ((m.lookup k).getD 0 + 1)
  rwa [if_pos known] at keys

end Lists

/-- The nodes of a sketch with their numbers of names, and the ends of its edges. -/
structure Holds (g : GSketch) (ns hs : List (Nat × Nat)) : Prop where
  nodes : (ns.map Prod.fst).Nodup
  keys : g.sketch.map Prod.fst = ns.map Prod.fst
  index : ∀ k ∈ ns.map Prod.fst, g.index k = some ((ns.map Prod.fst).idxOf k)
  idnums : ∀ e ∈ ns, g.idnums e.1 = e.2
  degree : (g.degree.map Prod.fst).Perm (ns.map Prod.fst)
  nodenum : g.nodenum = ns.length
  fresh : g.sorted_nodes = []
  lists : ∀ (i : Nat) (list : Nat × List Nat), g.sketch[i]? = some list →
    list.2.Nodup ∧ ∀ x, x ∈ list.2 ↔ list.1 ≠ x ∧ (list.1, x) ∈ hs
  inside : ∀ e ∈ hs, e.1 ∈ ns.map Prod.fst ∧ e.2 ∈ ns.map Prod.fst

variable {g : GSketch} {ns hs : List (Nat × Nat)} {h1 h2 k n : Nat}

theorem holds_new : Holds new [] [] where
  nodes := List.nodup_nil
  keys := rfl
  index := by simp
  idnums := by simp
  degree := List.Perm.refl _
  nodenum := rfl
  fresh := rfl
  lists := by simp [new]
  inside := by simp

theorem Holds.insert_node (holds : Holds g ns hs) (new : k ∉ ns.map Prod.fst) (n : Nat) :
    Holds (g.insert_node k n) (ns ++ [(k, n)]) hs where
  nodes := by
    rw [List.map_append]
    refine List.nodup_append'.mpr ⟨holds.nodes, List.nodup_singleton k, fun x hx hy => new ?_⟩
    have same : x = k := List.mem_singleton.mp hy
    exact same ▸ hx
  keys := by
    rw [GSketch.insert_node, List.map_append, List.map_append, holds.keys]
    rfl
  index := by
    intro x hx
    rw [List.map_append] at hx ⊢
    by_cases here : x = k
    · subst here
      rw [List.idxOf_append_of_notMem new]
      simp [GSketch.insert_node, holds.nodenum]
    · have old : x ∈ ns.map Prod.fst := by simpa [here] using hx
      rw [List.idxOf_append_of_mem old]
      simp only [GSketch.insert_node, Function.update_of_ne here]
      exact holds.index x old
  idnums := by
    intro e he
    rcases List.mem_append.mp he with he | he
    · have other : e.1 ≠ k := fun same => new (same ▸ List.mem_map_of_mem he)
      simp only [GSketch.insert_node, Function.update_of_ne other]
      exact holds.idnums e he
    · rw [List.mem_singleton.mp he]
      exact Function.update_self ..
  degree := by
    have unknown : k ∉ g.degree.map Prod.fst := fun here => new (holds.degree.mem_iff.mp here)
    have keys := assign_keys g.degree k 0
    rw [if_neg unknown] at keys
    rw [List.map_append]
    exact keys.trans ((holds.degree.cons k).trans (List.perm_append_singleton _ _).symm)
  nodenum := by simp [GSketch.insert_node, holds.nodenum]
  fresh := holds.fresh
  lists := by
    intro i list here
    rw [GSketch.insert_node, List.getElem?_append] at here
    split at here
    · exact holds.lists i list here
    · obtain rfl : list = (k, []) := by
        rw [List.getElem?_singleton] at here
        split at here
        · exact (Option.some.inj here).symm
        · cases here
      exact ⟨List.nodup_nil, fun x => ⟨fun hx => absurd hx List.not_mem_nil, fun both =>
        absurd (holds.inside _ both.2).1 new⟩⟩
  inside := by
    intro e he
    rw [List.map_append]
    exact ⟨List.mem_append_left _ (holds.inside e he).1, List.mem_append_left _ (holds.inside e he).2⟩

/-- The list of a node is where `index` says. -/
theorem Holds.list (holds : Holds g ns hs) (known : h1 ∈ ns.map Prod.fst) :
    ∃ list, g.sketch[(g.index h1).getD 0]? = some list ∧ list.1 = h1 ∧ g.index h1 = some ((ns.map Prod.fst).idxOf h1) := by
  have place := holds.index h1 known
  have inside : (ns.map Prod.fst).idxOf h1 < g.sketch.length := by
    rw [← List.length_map (f := Prod.fst), holds.keys]
    exact List.idxOf_lt_length_of_mem known
  have first : (g.sketch.map Prod.fst)[(ns.map Prod.fst).idxOf h1]? = some h1 := by
    rw [holds.keys]
    exact List.getElem?_idxOf known
  refine ⟨g.sketch[(ns.map Prod.fst).idxOf h1], ?_, ?_, place⟩
  · rw [place, Option.getD_some, List.getElem?_eq_getElem inside]
  · rw [List.getElem?_map, List.getElem?_eq_getElem inside, Option.map_some] at first
    exact Option.some.inj first

/-- The first nodes of the lists are all different. -/
theorem Holds.place_inj (holds : Holds g ns hs) {i j : Nat} {list list' : Nat × List Nat} (hi : g.sketch[i]? = some list)
    (hj : g.sketch[j]? = some list') (same : list.1 = list'.1) : i = j := by
  have nodup := holds.nodes
  rw [← holds.keys] at nodup
  have inside : i < (g.sketch.map Prod.fst).length := by
    rw [List.length_map]
    exact (List.getElem?_eq_some_iff.mp hi).1
  refine (List.getElem?_inj inside nodup).mp ?_
  rw [List.getElem?_map, List.getElem?_map, hi, hj, Option.map_some, Option.map_some, same]

theorem Holds.insert_end (holds : Holds g ns hs) (known : h1 ∈ ns.map Prod.fst) (known' : h2 ∈ ns.map Prod.fst) :
    Holds (g.insert_end h1 h2) ns (hs ++ [(h1, h2)]) := by
  obtain ⟨list, here, first, -⟩ := holds.list known
  obtain ⟨nodup, members⟩ := holds.lists _ _ here
  obtain ⟨first', nodup', members'⟩ := link_spec nodup h2
  unfold GSketch.insert_end
  simp only [here]
  refine ⟨holds.nodes, ?_, holds.index, holds.idnums, holds.degree, holds.nodenum, holds.fresh, fun j l there => ?_, ?_⟩
  · have place : (g.sketch.map Prod.fst)[(g.index h1).getD 0]? = some list.1 := by
      rw [List.getElem?_map, here, Option.map_some]
    obtain ⟨inside, same⟩ := List.getElem?_eq_some_iff.mp place
    rw [List.map_set, first', ← same, List.set_getElem_self, holds.keys]
  · rw [List.getElem?_set] at there
    split at there
    · rename_i same
      split at there
      · obtain rfl := Option.some.inj there
        refine ⟨nodup', fun x => ?_⟩
        rw [members', members, first', first, List.mem_append, List.mem_singleton, Prod.mk.injEq]
        by_cases loop : h1 = x
        · subst loop
          simp only [ne_eq, not_true_eq_false, false_and, false_or, iff_false, not_and, not_not]
          exact id
        · simp only [ne_eq, loop, not_false_eq_true, true_and]
          refine or_congr_right ⟨And.left, fun same => ⟨same, ?_⟩⟩
          exact same ▸ loop
      · cases there
    · rename_i other
      obtain ⟨nodup, members⟩ := holds.lists j l there
      have away : l.1 ≠ h1 := fun same => other (holds.place_inj here there (first.trans same.symm))
      exact ⟨nodup, fun x => by simp [members, away]⟩
  · intro e he
    rcases List.mem_append.mp he with he | he
    · exact holds.inside e he
    · rw [List.mem_singleton.mp he]
      exact ⟨known, known'⟩

theorem Holds.insert_edge (holds : Holds g ns hs) (known : h1 ∈ ns.map Prod.fst) (known' : h2 ∈ ns.map Prod.fst) :
    Holds (g.insert_edge h1 h2) ns (hs ++ [(h1, h2), (h2, h1)]) := by
  have counted : Holds { g with degree := increment (increment g.degree h1) h2 } ns hs := by
    refine ⟨holds.nodes, holds.keys, holds.index, holds.idnums, ?_, holds.nodenum, holds.fresh, holds.lists, holds.inside⟩
    have once := increment_keys (holds.degree.mem_iff.mpr known)
    have twice := increment_keys (once.mem_iff.mpr (holds.degree.mem_iff.mpr known'))
    exact twice.trans (once.trans holds.degree)
  have ends := (counted.insert_end known known').insert_end known' known
  rwa [List.append_assoc] at ends

theorem holds_nodes (nodup : (ns.map Prod.fst).Nodup) :
    Holds (ns.foldl (fun g e => g.insert_node e.1 e.2) new) ns [] := by
  induction ns using List.reverseRecOn with
  | nil => exact holds_new
  | append_singleton ns e ih =>
      rw [List.map_append] at nodup
      obtain ⟨before, -, apart⟩ := List.nodup_append'.mp nodup
      rw [List.foldl_append]
      exact (ih before).insert_node (fun here => apart here (List.mem_singleton.mpr rfl)) e.2

theorem Holds.insert_edges (holds : Holds g ns hs) (es : List (Nat × Nat))
    (known : ∀ e ∈ es, e.1 ∈ ns.map Prod.fst ∧ e.2 ∈ ns.map Prod.fst) :
    Holds (es.foldl (fun g e => g.insert_edge e.1 e.2) g) ns (hs ++ es.flatMap fun e => [(e.1, e.2), (e.2, e.1)]) := by
  induction es generalizing g hs with
  | nil => simpa using holds
  | cons e es ih =>
      obtain ⟨first, rest⟩ := List.forall_mem_cons.mp known
      have more := ih (holds.insert_edge first.1 first.2) rest
      rwa [List.append_assoc] at more

section Count

theorem sequence_getElem? {l : List DegreeNode} (nodup : (l.map DegreeNode.h).Nodup) {i : Nat} {node : DegreeNode}
    (here : l[i]? = some node) : sequence l node.h = i := by
  induction l using List.reverseRecOn with
  | nil => cases here
  | append_singleton l x ih =>
      rw [List.map_append] at nodup
      obtain ⟨before, -, apart⟩ := List.nodup_append'.mp nodup
      have step : sequence (l ++ [x]) = Function.update (sequence l) x.h l.length := by
        simp [sequence, List.zipIdx_append]
      rw [step]
      rw [List.getElem?_append] at here
      split at here
      · have other : node.h ≠ x.h := fun same =>
          apart (List.mem_map_of_mem (List.mem_of_getElem? here)) (List.mem_singleton.mpr same)
        rw [Function.update_of_ne other]
        exact ih before here
      · rw [List.getElem?_singleton] at here
        split at here
        · obtain rfl := Option.some.inj here
          rw [Function.update_self]
          omega
        · cases here

/-- The nodes have different places. -/
theorem sequence_injOn {l : List DegreeNode} (nodup : (l.map DegreeNode.h).Nodup) :
    Set.InjOn (sequence l) {k | k ∈ l.map DegreeNode.h} := by
  intro k hk k' hk' same
  obtain ⟨node, hn, rfl⟩ := List.mem_map.mp hk
  obtain ⟨node', hn', rfl⟩ := List.mem_map.mp hk'
  obtain ⟨i, here⟩ := List.mem_iff_getElem?.mp hn
  obtain ⟨j, there⟩ := List.mem_iff_getElem?.mp hn'
  rw [sequence_getElem? nodup here, sequence_getElem? nodup there] at same
  subst same
  rw [Option.some.inj (here.symm.trans there)]

/-- The join adds up what two lists have in common. -/
theorem countjoin_eq (V1 V2 : List Hashvalue) (h1 : V1.Pairwise fun a b => a.key < b.key)
    (h2 : V2.Pairwise fun a b => a.key < b.key) :
    countjoin V1 V2 = ((V1.filter fun a => a.key ∈ V2.map Hashvalue.key).map Hashvalue.IDnum).sum := by
  fun_induction countjoin V1 V2 with
  | case1 => rfl
  | case2 a V1 => simp
  | case3 a V1 b V2 less ih =>
      -- `b` is below everything on the first list
      rw [ih h1 (List.pairwise_cons.mp h2).2]
      have below : ∀ x ∈ a :: V1, x.key ≠ b.key := by
        intro x hx
        rcases List.mem_cons.mp hx with rfl | hx
        · omega
        · have := (List.pairwise_cons.mp h1).1 x hx
          omega
      refine congrArg (fun l => (List.map Hashvalue.IDnum l).sum) (List.filter_congr fun x hx => ?_)
      simp [below x hx]
  | case4 a V1 b V2 least same ih =>
      rw [ih (List.pairwise_cons.mp h1).2 (List.pairwise_cons.mp h2).2, List.filter_cons_of_pos (by simp [same]),
        List.map_cons, List.sum_cons]
      have above : ∀ x ∈ V1, x.key ≠ b.key := by
        intro x hx
        have := (List.pairwise_cons.mp h1).1 x hx
        omega
      refine congrArg (fun l => a.IDnum + (List.map Hashvalue.IDnum l).sum) (List.filter_congr fun x hx => ?_)
      simp [above x hx]
  | case5 a V1 b V2 least other ih =>
      rw [ih (List.pairwise_cons.mp h1).2 h2, List.filter_cons_of_neg]
      -- `a` is below everything on the second list
      simp only [List.mem_map, decide_eq_true_eq, not_exists, not_and]
      intro x hx
      rcases List.mem_cons.mp hx with rfl | hx
      · omega
      · have := (List.pairwise_cons.mp h2).1 x hx
        omega

theorem byKey_perm (hv : List Hashvalue) : (byKey hv).Perm hv := List.perm_insertionSort _ hv

theorem byKey_sorted {hv : List Hashvalue} (nodup : (hv.map Hashvalue.key).Nodup) :
    (byKey hv).Pairwise fun a b => a.key < b.key := by
  have sorted : (byKey hv).Pairwise fun a b => a.key ≤ b.key := List.pairwise_insertionSort _ hv
  have distinct : (byKey hv).Pairwise fun a b => a.key ≠ b.key :=
    List.pairwise_map.mp (((byKey_perm hv).map Hashvalue.key).nodup_iff.mpr nodup)
  exact (sorted.and distinct).imp fun both => lt_of_le_of_ne both.1 both.2

/-- The nodes, and which of them are joined. -/
def nodeSet (ns : List (Nat × Nat)) : Finset Nat := (ns.map Prod.fst).toFinset

def Joined (hs : List (Nat × Nat)) (x y : Nat) : Prop := x ≠ y ∧ (x, y) ∈ hs

instance (x y : Nat) : Decidable (Joined hs x y) := inferInstanceAs (Decidable (_ ∧ _))

variable (std : DegreeSort)

theorem Holds.sorted (holds : Holds g ns hs) :
    ((g.sorted std).map DegreeNode.h).Perm (ns.map Prod.fst) ∧ (g.sorted std).take g.nodenum = g.sorted std := by
  have perm := std.perm (g.sorted_nodes ++ g.degree.map fun e => ⟨e.1, e.2⟩)
  have keys : ((g.sorted std).map DegreeNode.h).Perm (ns.map Prod.fst) := by
    refine ((perm.map DegreeNode.h).trans ?_).trans holds.degree
    rw [holds.fresh, List.nil_append, List.map_map]
    exact List.Perm.refl _
  have length : (g.sorted std).length = g.nodenum := by
    rw [holds.nodenum, ← List.length_map (f := DegreeNode.h), keys.length_eq, List.length_map]
  exact ⟨keys, by rw [← length, List.take_length]⟩

/-- After `clean`, the lists lead to the joined nodes of higher rank. -/
theorem Holds.get_neighbors (holds : Holds g ns hs) {x : Nat} (known : x ∈ ns.map Prod.fst) :
    ∃ l : List Nat, (g.clean std).get_neighbors x = l.map (fun y => ⟨y, g.idnums y⟩) ∧ l.Nodup ∧
      ∀ y, y ∈ l ↔ Cliques.Up (Joined hs) (g.rank std) x y := by
  obtain ⟨list, here, rfl, place⟩ := holds.list known
  obtain ⟨nodup, members⟩ := holds.lists _ _ here
  rw [place, Option.getD_some] at here
  refine ⟨g.later std list, ?_, nodup.filter _, fun y => ?_⟩
  · have index : (g.clean std).index = g.index := rfl
    rw [GSketch.get_neighbors, index, place]
    simp only [clean, List.getElem?_map, here, Option.map_some, Option.elim_some]
  · rw [later, List.mem_filter, members, decide_eq_true_eq, Nat.not_le]
    rfl

theorem Holds.up_known (holds : Holds g ns hs) {x y : Nat} (up : Cliques.Up (Joined hs) (g.rank std) x y) :
    y ∈ ns.map Prod.fst := (holds.inside _ up.1.2).2

/-- The join of the lists of two nodes. -/
theorem Holds.join (holds : Holds g ns hs) {x y : Nat} (hx : x ∈ ns.map Prod.fst) (hy : y ∈ ns.map Prod.fst) :
    countjoin (byKey ((g.clean std).get_neighbors x)) (byKey ((g.clean std).get_neighbors y)) =
      ∑ z ∈ (nodeSet ns).filter (fun z => Cliques.Up (Joined hs) (g.rank std) x z ∧ Cliques.Up (Joined hs) (g.rank std) y z),
        g.idnums z := by
  obtain ⟨l, first, nodup, members⟩ := holds.get_neighbors std hx
  obtain ⟨l', second, nodup', members'⟩ := holds.get_neighbors std hy
  have keys : ∀ l : List Nat, (l.map fun y => (⟨y, g.idnums y⟩ : Hashvalue)).map Hashvalue.key = l := fun l => by
    rw [List.map_map]
    exact l.map_id
  rw [first, second, countjoin_eq _ _ (byKey_sorted (by rwa [keys])) (byKey_sorted (by rwa [keys]))]
  have common : ∀ z, z ∈ (byKey (l'.map fun y => ⟨y, g.idnums y⟩)).map Hashvalue.key ↔ z ∈ l' := fun z => by
    rw [((byKey_perm _).map Hashvalue.key).mem_iff, keys]
  have perm := ((byKey_perm (l.map fun y => (⟨y, g.idnums y⟩ : Hashvalue))).filter fun a =>
    a.key ∈ (byKey (l'.map fun y => ⟨y, g.idnums y⟩)).map Hashvalue.key).map Hashvalue.IDnum
  rw [perm.sum_eq, List.filter_map, List.map_map]
  have same : (nodeSet ns).filter (fun z => Cliques.Up (Joined hs) (g.rank std) x z ∧ Cliques.Up (Joined hs) (g.rank std) y z) =
      (l.filter fun z => z ∈ l').toFinset := by
    ext z
    simp only [Finset.mem_filter, List.mem_toFinset, List.mem_filter, decide_eq_true_eq, members, members', nodeSet]
    exact ⟨And.right, fun both => ⟨holds.up_known std both.1, both⟩⟩
  rw [same, List.sum_toFinset _ (nodup.filter _)]
  refine congrArg List.sum ?_
  have test : (l.filter fun z => z ∈ l') = l.filter ((fun a => decide (a.key ∈ (byKey (l'.map fun y =>
      ⟨y, g.idnums y⟩)).map Hashvalue.key)) ∘ fun y => (⟨y, g.idnums y⟩ : Hashvalue)) :=
    List.filter_congr fun z _ => by simp only [Function.comp_apply, common]
  rw [← test]
  rfl

/-- What a pass of the inner loop adds. -/
def product (g : GSketch) (x : Nat) (hv : Hashvalue) : Nat :=
  g.idnums x * hv.IDnum * countjoin (byKey (g.get_neighbors x)) (byKey (g.get_neighbors hv.key))

/-- The sum over the triangles, as the loops build it up. -/
theorem Holds.sum_products (holds : Holds g ns hs) (symm : ∀ x y, (x, y) ∈ hs → (y, x) ∈ hs) :
    ((g.sorted std).map fun node =>
      ((byKey ((g.clean std).get_neighbors node.h)).map ((g.clean std).product node.h)).sum).sum =
      ∑ t ∈ Cliques.triangles (nodeSet ns) (Joined hs), ∏ x ∈ t, g.idnums x := by
  obtain ⟨keys, all⟩ := holds.sorted std
  have nodup := keys.nodup_iff.mpr holds.nodes
  have inj : Set.InjOn (g.rank std) (nodeSet ns) := by
    have member : ∀ k, k ∈ nodeSet ns → k ∈ (g.sorted std).map DegreeNode.h := fun k hk =>
      keys.mem_iff.mpr (List.mem_toFinset.mp hk)
    intro k hk k' hk' same
    rw [rank, all] at same
    exact sequence_injOn nodup (member k hk) (member k' hk') same
  have joined : ∀ x y, Joined hs x y → Joined hs y x := fun x y both => ⟨both.1.symm, symm x y both.2⟩
  rw [← Cliques.sum_nested inj joined]
  have order : nodeSet ns = ((g.sorted std).map DegreeNode.h).toFinset := (List.toFinset_eq_of_perm _ _ keys).symm
  rw [order, List.sum_toFinset _ nodup, List.map_map]
  refine congrArg List.sum (List.map_congr_left fun node hn => ?_)
  have known : node.h ∈ ns.map Prod.fst := keys.mem_iff.mp (List.mem_map_of_mem hn)
  rw [Function.comp_apply, ← order]
  generalize node.h = x at known ⊢
  obtain ⟨l, first, once, members⟩ := holds.get_neighbors std known
  have same : (nodeSet ns).filter (Cliques.Up (Joined hs) (g.rank std) x) = l.toFinset := by
    ext y
    rw [Finset.mem_filter, List.mem_toFinset, members, nodeSet, List.mem_toFinset]
    exact ⟨And.right, fun up => ⟨holds.up_known std up, up⟩⟩
  rw [same, List.sum_toFinset _ once]
  let pass : Hashvalue → Nat := (g.clean std).product x
  calc ((byKey ((g.clean std).get_neighbors x)).map pass).sum
      = (((g.clean std).get_neighbors x).map pass).sum := ((byKey_perm _).map pass).sum_eq
    _ = ((l.map fun y => ⟨y, g.idnums y⟩).map pass).sum := congrArg (fun hv => (List.map pass hv).sum) first
    _ = (l.map fun y => pass ⟨y, g.idnums y⟩).sum := by rw [List.map_map]; rfl
    _ = _ := congrArg List.sum (List.map_congr_left fun y hy => by
        rw [← holds.join std known (holds.up_known std ((members y).mp hy))]
        rfl)

/-- The loops add up the triangles, unless an `int` overflows. -/
theorem Holds.countTriangle (holds : Holds g ns hs) (symm : ∀ x y, (x, y) ∈ hs → (y, x) ∈ hs)
    (named : ∀ x ∈ ns.map Prod.fst, 0 < g.idnums x) (pairs : ∀ x y, Joined hs x y → g.idnums x * g.idnums y < 2 ^ 31)
    (fits : ∑ t ∈ Cliques.triangles (nodeSet ns) (Joined hs), ∏ x ∈ t, g.idnums x < 2 ^ 31) :
    (g.clean std).countTriangle = some (∑ t ∈ Cliques.triangles (nodeSet ns) (Joined hs), ∏ x ∈ t, g.idnums x) := by
  obtain ⟨keys, all⟩ := holds.sorted std
  have nodes : (g.clean std).sorted_nodes.take (g.clean std).nodenum = g.sorted std := all
  rw [← holds.sum_products std symm] at fits ⊢
  rw [GSketch.countTriangle, nodes]
  refine (Counting.foldlM_bounded _ _ _ 0 (fun node hn count low => ?_) (by rwa [Nat.zero_add])).trans (by rw [Nat.zero_add])
  have known : node.h ∈ ns.map Prod.fst := keys.mem_iff.mp (List.mem_map_of_mem hn)
  refine Counting.foldlM_bounded _ _ _ count (fun hv hv_mem count low => ?_) low
  -- each neighbour has a name, so the join is no more than the product
  obtain ⟨l, first, -, members⟩ := holds.get_neighbors std known
  have neighbor : hv ∈ l.map fun y => (⟨y, g.idnums y⟩ : Hashvalue) := first ▸ (byKey_perm _).mem_iff.mp hv_mem
  obtain ⟨y, hy, rfl⟩ := List.mem_map.mp neighbor
  have up := (members y).mp hy
  have positive : 0 < g.idnums node.h * g.idnums y :=
    Nat.mul_pos (named _ known) (named y (holds.up_known std up))
  have join := Nat.le_mul_of_pos_left (countjoin (byKey ((g.clean std).get_neighbors node.h))
    (byKey ((g.clean std).get_neighbors y))) positive
  exact if_pos ⟨(join.trans (Nat.le_add_left _ _)).trans_lt low, pairs _ _ up.1, low⟩

end Count

end GSketch

end CuckooGraph
