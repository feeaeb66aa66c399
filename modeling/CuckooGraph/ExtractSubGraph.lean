import CuckooGraph.Numbering
import Mathlib.Data.List.Sort

/-! # The extract tool

`utility/ExtractSubGraph.cpp` chooses the vertices of the greatest degrees, and writes
the edges between them under new ids. Its ids are at least 0; where an `int` would
overflow it has no result.
-/

namespace CuckooGraph

open Numbering

namespace ExtractSubGraph

/-- `++` of an `int`. -/
def incr (n : Nat) : Option Nat := if n + 1 < 2 ^ 31 then some (n + 1) else none

/-- `greater<pair<int, int>>` -/
def greater (p q : Nat × Nat) : Prop := q.1 < p.1 ∨ q.1 = p.1 ∧ q.2 < p.2

instance (p q : Nat × Nat) : Decidable (greater p q) := inferInstanceAs (Decidable (_ ∨ _))

/-- The order which `sort` makes of it. -/
def sorts (p q : Nat × Nat) : Prop := ¬ greater q p

instance (p q : Nat × Nat) : Decidable (sorts p q) := inferInstanceAs (Decidable (¬ _))

section Code

variable (maxVertex k : Nat) (edges : List (Nat × Nat))

/-- `degree[v].first++` -/
def bump (degree : List (Nat × Nat)) (v : Nat) : Option (List (Nat × Nat)) :=
  match degree[v]? with
  | some (d, i) => (incr d).map fun d => degree.set v (d, i)
  | none => none

/-- The vector `degree` before it is sorted. -/
def degrees : Option (List (Nat × Nat)) :=
  (incr maxVertex).bind fun n =>
    edges.foldlM (fun degree e => (bump degree e.1).bind (bump · e.2)) ((List.range n).map fun i => (0, i))

/-- The vertices chosen from the vector. -/
def choose (degree : List (Nat × Nat)) : Finset Nat :=
  let degree := (degree.insertionSort sorts).takeWhile (·.1 ≠ 0)
  let numOfVertexes := min k degree.length
  ((degree.take numOfVertexes).map Prod.snd).toFinset

/-- The variables of the last loop, and the ids on the lines of `of`. -/
structure Renaming where
  real2Logical : Nat → Nat
  logicalId : Nat
  lines : List (Nat × Nat)

/-- Name a vertex unless it has a name. -/
def Renaming.name (s : Renaming) (v : Nat) : Option Renaming :=
  if s.real2Logical v = 0 then
    (incr s.logicalId).map fun next =>
      { s with real2Logical := Function.update s.real2Logical v s.logicalId, logicalId := next }
  else some s

def Renaming.visit (chosenVertexes : Finset Nat) (s : Renaming) (e : Nat × Nat) : Option Renaming :=
  if e.1 ∈ chosenVertexes ∧ e.2 ∈ chosenVertexes then
    (s.name e.1).bind fun s => (s.name e.2).map fun s =>
      { s with lines := s.lines ++ [(s.real2Logical e.1, s.real2Logical e.2)] }
  else some s

def rename (chosenVertexes : Finset Nat) : Option Renaming :=
  edges.foldlM (Renaming.visit chosenVertexes) ⟨fun _ => 0, 1, []⟩

/-- The chosen vertices and the edges written. -/
def extract : Option (Finset Nat × List (Nat × Nat)) :=
  (degrees maxVertex edges).bind fun degree =>
    let chosenVertexes := choose k degree
    (rename edges chosenVertexes).map fun s => (chosenVertexes, s.lines)

end Code

/-- How often a vertex is an end of an edge. -/
def degree (edges : List (Nat × Nat)) (v : Nat) : Nat := (edges.map Prod.fst).count v + (edges.map Prod.snd).count v

/-- The vertices of a degree > 0. -/
def active (maxVertex : Nat) (edges : List (Nat × Nat)) : Finset Nat :=
  (Finset.range (maxVertex + 1)).filter fun v => 0 < degree edges v

/-- The ends of the edges in the order of the list. -/
def ends (edges : List (Nat × Nat)) : List Nat := edges.flatMap fun e => [e.1, e.2]

/-- The edges between chosen vertices. -/
def induced (chosen : Finset Nat) (edges : List (Nat × Nat)) : List (Nat × Nat) :=
  edges.filter fun e => e.1 ∈ chosen ∧ e.2 ∈ chosen

section Counting

variable {maxVertex : Nat} {edges : List (Nat × Nat)}

/-- The vector with the degrees `d`. -/
def vector (n : Nat) (d : Nat → Nat) : List (Nat × Nat) := (List.range n).map fun i => (d i, i)

theorem incr_eq {n : Nat} (small : n + 1 < 2 ^ 31) : incr n = some (n + 1) := if_pos small

theorem incr_eq_some {n m : Nat} : incr n = some m ↔ n + 1 < 2 ^ 31 ∧ m = n + 1 := by
  unfold incr
  split
  · rename_i small
    exact ⟨fun h => ⟨small, (Option.some.inj h).symm⟩, fun h => h.2 ▸ rfl⟩
  · rename_i large
    exact ⟨nofun, fun h => absurd h.1 large⟩

theorem bump_vector {n v : Nat} (d : Nat → Nat) (hv : v < n) :
    bump (vector n d) v = (incr (d v)).map fun next => vector n (Function.update d v next) := by
  have here : (vector n d)[v]? = some (d v, v) := by simp [vector, hv]
  rw [bump, here]
  refine Option.map_congr fun next _ => List.ext_getElem ?_ fun i hi hi' => ?_
  · simp [vector]
  · by_cases same : i = v
    · subst same
      simp [vector]
    · simp [vector, same, List.getElem_set_ne (Ne.symm same)]

theorem update_count (d : Nat → Nat) (x : Nat) (vs : List Nat) (v : Nat) :
    Function.update d x (d x + 1) v + vs.count v = d v + (x :: vs).count v := by
  by_cases same : v = x
  · subst same
    rw [Function.update_self, List.count_cons_self]
    omega
  · rw [Function.update_of_ne same, List.count_cons_of_ne (Ne.symm same)]

/-- A loop over vertices counts them. -/
theorem foldlM_bump {n : Nat} {vs : List Nat} (d : Nat → Nat) (inside : ∀ v ∈ vs, v < n)
    (small : ∀ v, d v + vs.count v < 2 ^ 31) :
    vs.foldlM bump (vector n d) = some (vector n fun v => d v + vs.count v) := by
  induction vs generalizing d with
  | nil => rfl
  | cons x vs ih =>
      have fits : d x + 1 < 2 ^ 31 := by
        have := small x
        rw [List.count_cons_self] at this
        omega
      rw [List.foldlM_cons, bump_vector d (inside x List.mem_cons_self), incr_eq fits]
      refine (ih _ (fun v hv => inside v (List.mem_cons_of_mem x hv)) fun v => ?_).trans ?_
      · rw [update_count]
        exact small v
      · exact congrArg (fun f => some (vector n f)) (funext (update_count d x vs))

/-- It has a result only if all counts fit. -/
theorem count_of_foldlM_bump {n : Nat} {vs : List Nat} {l : List (Nat × Nat)} (d : Nat → Nat)
    (inside : ∀ v ∈ vs, v < n) (now : ∀ v, d v < 2 ^ 31) (done : vs.foldlM bump (vector n d) = some l) (v : Nat) :
    d v + vs.count v < 2 ^ 31 := by
  induction vs generalizing d with
  | nil => exact now v
  | cons x vs ih =>
      rw [List.foldlM_cons, bump_vector d (inside x List.mem_cons_self)] at done
      obtain ⟨l', first, rest⟩ := Option.bind_eq_some_iff.mp done
      obtain ⟨next, more, rfl⟩ := Option.map_eq_some_iff.mp first
      obtain ⟨fits, rfl⟩ := incr_eq_some.mp more
      rw [← update_count]
      refine ih _ (fun v hv => inside v (List.mem_cons_of_mem x hv)) (fun v => ?_) rest
      by_cases same : v = x
      · subst same
        rw [Function.update_self]
        exact fits
      · rw [Function.update_of_ne same]
        exact now v

theorem count_ends (edges : List (Nat × Nat)) (v : Nat) : (ends edges).count v = degree edges v := by
  induction edges with
  | nil => rfl
  | cons e es ih =>
      have more : ends (e :: es) = e.1 :: e.2 :: ends es := rfl
      rw [more, List.count_cons, List.count_cons, ih]
      simp only [degree, List.map_cons, List.count_cons]
      omega

theorem mem_ends {v : Nat} : v ∈ ends edges ↔ ∃ e ∈ edges, v = e.1 ∨ v = e.2 := by
  simp [ends]

/-- The loop over the edges is one over their ends. -/
theorem foldlM_ends (s : List (Nat × Nat)) :
    edges.foldlM (fun degree e => (bump degree e.1).bind (bump · e.2)) s = (ends edges).foldlM bump s := by
  induction edges generalizing s with
  | nil => rfl
  | cons e es ih =>
      have more : ends (e :: es) = e.1 :: e.2 :: ends es := rfl
      rw [more, List.foldlM_cons, List.foldlM_cons]
      cases bump s e.1 with
      | none => rfl
      | some s1 =>
          change (bump s1 e.2).bind _ = List.foldlM bump s1 (e.2 :: ends es)
          rw [List.foldlM_cons]
          exact congrArg (bump s1 e.2).bind (funext ih)

theorem ends_inside (ids : ∀ e ∈ edges, e.1 ≤ maxVertex ∧ e.2 ≤ maxVertex) :
    ∀ v ∈ ends edges, v < maxVertex + 1 := by
  intro v hv
  obtain ⟨e, he, rfl | rfl⟩ := mem_ends.mp hv
  · exact Nat.lt_succ_of_le (ids e he).1
  · exact Nat.lt_succ_of_le (ids e he).2

theorem degrees_eq (ids : ∀ e ∈ edges, e.1 ≤ maxVertex ∧ e.2 ≤ maxVertex) (top : maxVertex + 1 < 2 ^ 31)
    (small : ∀ v, degree edges v < 2 ^ 31) :
    degrees maxVertex edges = some (vector (maxVertex + 1) (degree edges)) := by
  have run := foldlM_bump (fun _ => 0) (ends_inside ids) fun v => by
    rw [Nat.zero_add, count_ends]
    exact small v
  simp only [Nat.zero_add, count_ends] at run
  rw [degrees, incr_eq top, Option.bind_some, foldlM_ends]
  exact run

theorem fits_of_degrees {l : List (Nat × Nat)} (ids : ∀ e ∈ edges, e.1 ≤ maxVertex ∧ e.2 ≤ maxVertex)
    (done : degrees maxVertex edges = some l) : maxVertex + 1 < 2 ^ 31 ∧ ∀ v, degree edges v < 2 ^ 31 := by
  obtain ⟨n, more, run⟩ := Option.bind_eq_some_iff.mp done
  obtain ⟨top, rfl⟩ := incr_eq_some.mp more
  refine ⟨top, fun v => ?_⟩
  rw [foldlM_ends] at run
  have counts := count_of_foldlM_bump (fun _ => 0) (ends_inside ids) (fun _ => by omega) run v
  rw [Nat.zero_add, count_ends] at counts
  exact counts

end Counting

section Selection

instance : Std.Total sorts where
  total p q := by
    unfold sorts greater
    omega

instance : IsTrans (Nat × Nat) sorts where
  trans p q r := by
    unfold sorts greater
    omega

theorem greater_of_sorts {p q : Nat × Nat} (sorted : sorts p q) (other : p.2 ≠ q.2) : greater p q := by
  unfold sorts greater at *
  omega

/-- Behind the first pair with 0 all others have 0 as well. -/
theorem takeWhile_sorted {l : List (Nat × Nat)} (sorted : l.Pairwise sorts) :
    (l.takeWhile fun p => p.1 ≠ 0) = l.filter fun p => p.1 ≠ 0 := by
  induction l with
  | nil => rfl
  | cons p l ih =>
      obtain ⟨first, rest⟩ := List.pairwise_cons.mp sorted
      by_cases zero : p.1 = 0
      · have none : (l.filter fun q => q.1 ≠ 0) = [] := by
          rw [List.filter_eq_nil_iff]
          intro q hq
          have less := first q hq
          unfold sorts greater at less
          simp only [decide_eq_true_eq]
          omega
        rw [List.takeWhile_cons_of_neg (by simpa using zero), List.filter_cons_of_neg (by simpa using zero), none]
      · rw [List.takeWhile_cons_of_pos (by simpa using zero), List.filter_cons_of_pos (by simpa using zero), ih rest]

variable {n : Nat} {d : Nat → Nat}

theorem mem_vector {p : Nat × Nat} : p ∈ vector n d ↔ p.2 < n ∧ p = (d p.2, p.2) := by
  simp only [vector, List.mem_map, List.mem_range]
  constructor
  · rintro ⟨i, hi, rfl⟩
    exact ⟨hi, rfl⟩
  · rintro ⟨hi, same⟩
    exact ⟨p.2, hi, same.symm⟩

/-- The pairs which are left after the cut, in order. -/
def ranked (n : Nat) (d : Nat → Nat) : List (Nat × Nat) :=
  ((vector n d).insertionSort sorts).takeWhile fun p => p.1 ≠ 0

theorem ranked_eq : ranked n d = ((vector n d).insertionSort sorts).filter fun p => p.1 ≠ 0 :=
  takeWhile_sorted (List.pairwise_insertionSort sorts (vector n d))

theorem ranked_sorted : (ranked n d).Pairwise sorts := by
  rw [ranked_eq]
  exact (List.pairwise_insertionSort sorts (vector n d)).filter _

theorem mem_ranked {p : Nat × Nat} : p ∈ ranked n d ↔ p.2 < n ∧ 0 < d p.2 ∧ p = (d p.2, p.2) := by
  rw [ranked_eq, List.mem_filter, List.mem_insertionSort, mem_vector, decide_eq_true_eq]
  constructor
  · rintro ⟨⟨inside, same⟩, positive⟩
    rw [same] at positive
    exact ⟨inside, Nat.pos_of_ne_zero positive, same⟩
  · rintro ⟨inside, positive, same⟩
    refine ⟨⟨inside, same⟩, ?_⟩
    rw [same]
    exact positive.ne'

theorem ranked_nodup : ((ranked n d).map Prod.snd).Nodup := by
  have all : ((vector n d).map Prod.snd) = List.range n := by
    rw [vector, List.map_map]
    exact List.map_id _
  have perm := (List.perm_insertionSort sorts (vector n d)).map Prod.snd
  rw [all] at perm
  rw [ranked_eq]
  exact (perm.nodup_iff.mpr List.nodup_range).sublist (List.filter_sublist.map _)

theorem ranked_vertices : ((ranked n d).map Prod.snd).toFinset = (Finset.range n).filter fun v => 0 < d v := by
  ext v
  simp only [List.mem_toFinset, List.mem_map, mem_ranked, Finset.mem_filter, Finset.mem_range]
  constructor
  · rintro ⟨p, ⟨inside, positive, -⟩, rfl⟩
    exact ⟨inside, positive⟩
  · rintro ⟨inside, positive⟩
    exact ⟨(d v, v), ⟨inside, positive, rfl⟩, rfl⟩

theorem ranked_length : (ranked n d).length = ((Finset.range n).filter fun v => 0 < d v).card := by
  rw [← ranked_vertices, List.toFinset_card_of_nodup ranked_nodup, List.length_map]

theorem choose_eq (k : Nat) : choose k (vector n d) =
    (((ranked n d).take (min k (ranked n d).length)).map Prod.snd).toFinset := rfl

theorem card_choose (k : Nat) :
    (choose k (vector n d)).card = min k ((Finset.range n).filter fun v => 0 < d v).card := by
  rw [choose_eq, List.toFinset_card_of_nodup (ranked_nodup.sublist ((List.take_sublist _ _).map _)),
    List.length_map, List.length_take, ranked_length]
  omega

theorem mem_choose {k v : Nat} (hv : v ∈ choose k (vector n d)) :
    v < n ∧ 0 < d v ∧ (d v, v) ∈ (ranked n d).take (min k (ranked n d).length) := by
  rw [choose_eq, List.mem_toFinset] at hv
  obtain ⟨p, hp, rfl⟩ := List.mem_map.mp hv
  obtain ⟨inside, positive, same⟩ := mem_ranked.mp (List.mem_of_mem_take hp)
  exact ⟨inside, positive, same ▸ hp⟩

/-- What is chosen comes before what is not. -/
theorem choose_greater {k u v : Nat} (hv : v ∈ choose k (vector n d)) (hu : u ∉ choose k (vector n d))
    (inside : u < n) (positive : 0 < d u) : greater (d v, v) (d u, u) := by
  have taken := (mem_choose hv).2.2
  have rest : (d u, u) ∈ (ranked n d).drop (min k (ranked n d).length) := by
    have all : (d u, u) ∈ ranked n d := mem_ranked.mpr ⟨inside, positive, rfl⟩
    rw [← List.take_append_drop (min k (ranked n d).length) (ranked n d)] at all
    refine (List.mem_append.mp all).resolve_left fun early => hu ?_
    rw [choose_eq, List.mem_toFinset]
    exact List.mem_map.mpr ⟨_, early, rfl⟩
  have sorted := ranked_sorted (n := n) (d := d)
  rw [← List.take_append_drop (min k (ranked n d).length) (ranked n d)] at sorted
  refine greater_of_sorts ((List.pairwise_append.mp sorted).2.2 _ taken _ rest) ?_
  intro same
  obtain rfl : v = u := same
  exact hu hv

end Selection

section Names

variable {chosen : Finset Nat} {names : List Nat}

/-- What `real2Logical` holds when `names` are named. -/
def label (names : List Nat) (v : Nat) : Nat := if v ∈ names then number names v else 0

/-- The state with these names and lines, unless `logicalId` overflows. -/
def named (names : List Nat) (lines : List (Nat × Nat)) : Option Renaming :=
  (incr names.length).map fun next => ⟨label names, next, lines⟩

/-- An edge with the numbers of its ends. -/
def numbered (names : List Nat) (e : Nat × Nat) : Nat × Nat := (number names e.1, number names e.2)

theorem numbered_kept {names' : List Nat} {e : Nat × Nat} (later : names <+: names') (first : e.1 ∈ names)
    (second : e.2 ∈ names) : numbered names' e = numbered names e := by
  rw [numbered, numbered, number_kept later first, number_kept later second]

theorem label_of_mem {v : Nat} (known : v ∈ names) : label names v = number names v := if_pos known

theorem label_enter {v : Nat} (unknown : v ∉ names) :
    Function.update (label names) v (names.length + 1) = label (enter names v) := by
  funext u
  by_cases here : u = v
  · subst here
    rw [Function.update_self, label_of_mem mem_enter_self, number_new unknown, enter, if_neg unknown,
      List.length_append, List.length_singleton]
  · rw [Function.update_of_ne here]
    by_cases old : u ∈ names
    · rw [label_of_mem old, label_of_mem (mem_enter_of_mem old), number_kept (prefix_enter names v) old]
    · have new : u ∉ enter names v := fun entered => (mem_enter.mp entered).elim old here
      rw [label, label, if_neg old, if_neg new]

theorem named_name (names : List Nat) (lines : List (Nat × Nat)) (v : Nat) :
    (named names lines).bind (·.name v) = named (enter names v) lines := by
  by_cases known : v ∈ names
  · have same : ∀ next, Renaming.name ⟨label names, next, lines⟩ v = some ⟨label names, next, lines⟩ := by
      intro next
      refine if_neg ?_
      change label names v ≠ 0
      rw [label_of_mem known]
      exact Nat.succ_ne_zero _
    rw [enter, if_pos known, named, Option.bind_map]
    cases incr names.length with
    | none => rfl
    | some next => exact same next
  · have unnamed : label names v = 0 := if_neg known
    have more : (enter names v).length = names.length + 1 := by
      rw [enter, if_neg known, List.length_append, List.length_singleton]
    rw [named, named, more, ← label_enter known, Option.bind_map]
    by_cases few : names.length + 1 < 2 ^ 31
    · rw [incr_eq few, Option.bind_some]
      exact if_pos unnamed
    · have many : ¬ names.length + 1 + 1 < 2 ^ 31 := by omega
      rw [incr, if_neg few, incr, if_neg many]
      rfl

/-- An edge between chosen vertices is written with the names which they have then. -/
theorem named_visit (lines : List (Nat × Nat)) {e : Nat × Nat} (inside : e.1 ∈ chosen ∧ e.2 ∈ chosen) :
    (named names lines).bind (·.visit chosen e) =
      named (enter (enter names e.1) e.2) (lines ++ [numbered (enter (enter names e.1) e.2) e]) := by
  have first : e.1 ∈ enter (enter names e.1) e.2 := mem_enter_of_mem mem_enter_self
  have second : e.2 ∈ enter (enter names e.1) e.2 := mem_enter_self
  have steps : (named names lines).bind (·.visit chosen e) =
      (((named names lines).bind (·.name e.1)).bind (·.name e.2)).map fun s =>
        { s with lines := s.lines ++ [(s.real2Logical e.1, s.real2Logical e.2)] } := by
    cases named names lines with
    | none => rfl
    | some s =>
        change s.visit chosen e = _
        rw [Renaming.visit, if_pos inside, Option.bind_some]
        cases s.name e.1 <;> rfl
  rw [steps, named_name, named_name, numbered, ← label_of_mem first, ← label_of_mem second, named, named,
    Option.map_map]
  rfl

/-- All edges are written with the names at the end. -/
theorem named_run (chosen : Finset Nat) (edges : List (Nat × Nat)) (names : List Nat) (lines : List (Nat × Nat)) :
    (named names lines).bind (fun s => edges.foldlM (Renaming.visit chosen) s) =
      named ((ends (induced chosen edges)).foldl enter names)
        (lines ++ (induced chosen edges).map (numbered ((ends (induced chosen edges)).foldl enter names))) := by
  induction edges generalizing names lines with
  | nil =>
      have none : induced chosen [] = [] := rfl
      rw [none, List.map_nil, List.append_nil]
      exact Option.bind_fun_some _
  | cons e es ih =>
      have steps : (named names lines).bind (fun s => (e :: es).foldlM (Renaming.visit chosen) s) =
          ((named names lines).bind (·.visit chosen e)).bind fun s => es.foldlM (Renaming.visit chosen) s := by
        rw [Option.bind_assoc]
        rfl
      rw [steps]
      by_cases inside : e.1 ∈ chosen ∧ e.2 ∈ chosen
      · have kept : induced chosen (e :: es) = e :: induced chosen es :=
          List.filter_cons_of_pos (by simpa using inside)
        have more : (ends (e :: induced chosen es)).foldl enter names =
            (ends (induced chosen es)).foldl enter (enter (enter names e.1) e.2) := rfl
        have later := prefix_foldl_enter (ends (induced chosen es)) (enter (enter names e.1) e.2)
        rw [named_visit lines inside, ih, kept, more, List.map_cons, List.append_assoc, List.singleton_append,
          numbered_kept later (mem_enter_of_mem mem_enter_self) mem_enter_self]
      · have kept : induced chosen (e :: es) = induced chosen es :=
          List.filter_cons_of_neg (by simpa using inside)
        have skipped : ∀ s : Renaming, s.visit chosen e = some s := fun s => if_neg inside
        simp only [skipped]
        rw [Option.bind_fun_some, ih, kept]

theorem rename_eq (edges : List (Nat × Nat)) : rename edges chosen =
    named (firsts (ends (induced chosen edges)))
      ((induced chosen edges).map (numbered (firsts (ends (induced chosen edges))))) := by
  have start : named [] [] = some ⟨fun _ => 0, 1, []⟩ := by
    rw [named, List.length_nil, incr_eq (by decide)]
    rfl
  have run := named_run chosen edges [] []
  rw [start, Option.bind_some, List.nil_append] at run
  exact run

end Names

/-- `chosen` are the vertices which are greatest by degree and id. -/
structure Chosen (maxVertex k : Nat) (edges : List (Nat × Nat)) (chosen : Finset Nat) : Prop where
  card : chosen.card = min k (active maxVertex edges).card
  subset : chosen ⊆ active maxVertex edges
  greatest : ∀ v ∈ chosen, ∀ u ∈ active maxVertex edges, u ∉ chosen → greater (degree edges v, v) (degree edges u, u)

/-- The lines are the edges between chosen vertices, the ends numbered by first occurrence. -/
def Renamed (written lines : List (Nat × Nat)) : Prop :=
  ∃ name : Nat → Nat, lines = written.map (fun e => (name e.1, name e.2)) ∧
    Set.BijOn name {v | v ∈ ends written} (Set.Icc 1 (ends written).toFinset.card) ∧
    (∀ u ∈ ends written, ∀ v ∈ ends written, (ends written).idxOf u < (ends written).idxOf v → name u < name v) ∧
    (∀ v ∈ ends written, name v ≠ 0) ∧
    ∀ u ∈ ends written, ∀ v ∈ ends written, name u = name v ↔ u = v

/-- No `int` overflows. -/
structure Fits (maxVertex k : Nat) (edges : List (Nat × Nat)) : Prop where
  top : maxVertex + 1 < 2 ^ 31
  degrees : ∀ v, degree edges v < 2 ^ 31
  names : min k (active maxVertex edges).card + 1 < 2 ^ 31

theorem choose_chosen (maxVertex k : Nat) (edges : List (Nat × Nat)) :
    Chosen maxVertex k edges (choose k (vector (maxVertex + 1) (degree edges))) where
  card := card_choose k
  subset v hv := by
    obtain ⟨inside, positive, -⟩ := mem_choose hv
    exact Finset.mem_filter.mpr ⟨Finset.mem_range.mpr inside, positive⟩
  greatest v hv u hu out := by
    obtain ⟨inside, positive⟩ := Finset.mem_filter.mp hu
    exact choose_greater hv out (Finset.mem_range.mp inside) positive

theorem ends_induced (chosen : Finset Nat) (edges : List (Nat × Nat)) :
    (ends (induced chosen edges)).toFinset ⊆ chosen := by
  intro v hv
  obtain ⟨e, he, rfl | rfl⟩ := mem_ends.mp (List.mem_toFinset.mp hv)
  all_goals have both : e.1 ∈ chosen ∧ e.2 ∈ chosen := by simpa using (List.mem_filter.mp he).2
  · exact both.1
  · exact both.2

theorem renamed_number (written : List (Nat × Nat)) :
    Renamed written (written.map (numbered (firsts (ends written)))) := by
  refine ⟨number (firsts (ends written)), rfl, ?_, fun u hu v hv => number_lt hu hv,
    fun v _ => Nat.succ_ne_zero _, fun u hu v _ => ⟨fun same => ?_, fun same => same ▸ rfl⟩⟩
  · have numbers := number_bijOn (nodup_firsts (ends written))
    simpa only [mem_firsts, length_firsts] using numbers
  · exact (List.idxOf_inj (mem_firsts.mpr hu)).mp (Nat.succ.inj same)

theorem rename_renamed {chosen : Finset Nat} (edges : List (Nat × Nat)) (few : chosen.card + 1 < 2 ^ 31) :
    ∃ s, rename edges chosen = some s ∧ Renamed (induced chosen edges) s.lines := by
  have less := Finset.card_le_card (ends_induced chosen edges)
  rw [rename_eq, named, length_firsts, incr_eq (by omega)]
  exact ⟨_, rfl, renamed_number _⟩

theorem extract_eq {maxVertex k : Nat} {edges : List (Nat × Nat)}
    (counted : degrees maxVertex edges = some (vector (maxVertex + 1) (degree edges))) :
    extract maxVertex k edges = (rename edges (choose k (vector (maxVertex + 1) (degree edges)))).map fun s =>
      (choose k (vector (maxVertex + 1) (degree edges)), s.lines) := by
  rw [extract, counted]
  rfl

section Overflow

variable {maxVertex k : Nat} {edges : List (Nat × Nat)} (ids : ∀ e ∈ edges, e.1 ≤ maxVertex ∧ e.2 ≤ maxVertex)
include ids

theorem active_of_mem_ends {v : Nat} (hv : v ∈ ends edges) : v ∈ active maxVertex edges := by
  refine Finset.mem_filter.mpr ⟨Finset.mem_range.mpr (ends_inside ids v hv), ?_⟩
  rw [← count_ends]
  exact List.count_pos_iff.mpr hv

theorem induced_active : induced (active maxVertex edges) edges = edges := by
  refine List.filter_eq_self.mpr fun e he => decide_eq_true ⟨?_, ?_⟩
  · exact active_of_mem_ends ids (mem_ends.mpr ⟨e, he, .inl rfl⟩)
  · exact active_of_mem_ends ids (mem_ends.mpr ⟨e, he, .inr rfl⟩)

theorem ends_active : (ends edges).toFinset = active maxVertex edges := by
  ext v
  rw [List.mem_toFinset]
  refine ⟨active_of_mem_ends ids, fun hv => ?_⟩
  have positive := (Finset.mem_filter.mp hv).2
  rw [← count_ends] at positive
  exact List.count_pos_iff.mp positive

/-- Only if all vertices are chosen can the new ids run out, and then every edge is written. -/
theorem names_fit (top : maxVertex + 1 < 2 ^ 31)
    (done : rename edges (choose k (vector (maxVertex + 1) (degree edges))) ≠ none) :
    min k (active maxVertex edges).card + 1 < 2 ^ 31 := by
  have chosen := choose_chosen maxVertex k edges
  have bound : (active maxVertex edges).card ≤ maxVertex + 1 := by
    have inside := Finset.card_le_card
      (Finset.filter_subset (fun v => 0 < degree edges v) (Finset.range (maxVertex + 1)))
    rwa [Finset.card_range] at inside
  by_cases all : (active maxVertex edges).card ≤ k
  · have same : choose k (vector (maxVertex + 1) (degree edges)) = active maxVertex edges :=
      Finset.eq_of_subset_of_card_le chosen.subset (by rw [chosen.card]; exact Nat.le_min.mpr ⟨all, le_rfl⟩)
    rw [same, rename_eq, induced_active ids, named, length_firsts, ends_active ids] at done
    rw [Nat.min_eq_right all]
    by_contra many
    rw [incr, if_neg many] at done
    exact done rfl
  · omega

theorem fits_of_extract (done : extract maxVertex k edges ≠ none) : Fits maxVertex k edges := by
  cases counted : degrees maxVertex edges with
  | none =>
      rw [extract, counted] at done
      exact absurd rfl done
  | some l =>
      obtain ⟨top, small⟩ := fits_of_degrees ids counted
      refine ⟨top, small, names_fit ids top fun failed => done ?_⟩
      rw [extract_eq (degrees_eq ids top small), failed]
      rfl

theorem extract_none (overflow : ¬ Fits maxVertex k edges) : extract maxVertex k edges = none :=
  Classical.byContradiction fun done => overflow (fits_of_extract ids done)

end Overflow

theorem degree_replicate (n v : Nat) : degree (List.replicate n (v, v)) v = n + n := by
  simp [degree]

/-- Each of the three counters can overflow: the size of the vector, a degree and `logicalId`. -/
theorem extract_overflows : extract 2147483647 2 [(2147483647, 1)] = none ∧
    extract 1 1 (List.replicate 1073741824 (1, 1)) = none ∧
    extract 2147483646 2147483647 ((List.range 2147483647).map fun v => (v, v)) = none := by
  refine ⟨extract_none ?_ fun fits => absurd fits.top (by decide), extract_none ?_ fun fits => ?_,
    extract_none ?_ fun fits => ?_⟩
  · simp
  · intro e he
    rw [List.eq_of_mem_replicate he]
    exact ⟨le_rfl, le_rfl⟩
  · have large := fits.degrees 1
    rw [degree_replicate] at large
    omega
  · intro e he
    obtain ⟨v, hv, rfl⟩ := List.mem_map.mp he
    have less := List.mem_range.mp hv
    exact ⟨by omega, by omega⟩
  · have all : active 2147483646 ((List.range 2147483647).map fun v => (v, v)) = Finset.range 2147483647 := by
      refine Finset.filter_true_of_mem fun v hv => ?_
      rw [← count_ends]
      refine List.count_pos_iff.mpr (mem_ends.mpr ⟨(v, v), List.mem_map.mpr ⟨v, ?_, rfl⟩, .inl rfl⟩)
      exact List.mem_range.mpr (Finset.mem_range.mp hv)
    have large := fits.names
    rw [all, Finset.card_range] at large
    omega

/-- As long as no `int` overflows, the greatest vertices are chosen, and the edges
    between them are written under new ids. -/
theorem extract_exact {maxVertex k : Nat} {edges : List (Nat × Nat)}
    (ids : ∀ e ∈ edges, e.1 ≤ maxVertex ∧ e.2 ≤ maxVertex) (fits : Fits maxVertex k edges) :
    ∃ chosen lines, extract maxVertex k edges = some (chosen, lines) ∧ Chosen maxVertex k edges chosen ∧
      Renamed (induced chosen edges) lines := by
  have chosen := choose_chosen maxVertex k edges
  have few : (choose k (vector (maxVertex + 1) (degree edges))).card + 1 < 2 ^ 31 := by
    rw [chosen.card]
    exact fits.names
  obtain ⟨s, done, renamed⟩ := rename_renamed edges few
  refine ⟨_, s.lines, ?_, chosen, renamed⟩
  rw [extract_eq (degrees_eq ids fits.top fits.degrees), done]
  rfl

/-- A repeated edge, a self-loop, an edge with an end which is not chosen. -/
theorem extract_exact_small : ∃ chosen lines,
    extract 5 2 [(3, 5), (5, 5), (1, 3), (3, 5)] = some (chosen, lines) ∧
      Chosen 5 2 [(3, 5), (5, 5), (1, 3), (3, 5)] chosen ∧
      Renamed (induced chosen [(3, 5), (5, 5), (1, 3), (3, 5)]) lines := by
  refine extract_exact (by decide) ⟨by decide, fun v => ?_, by decide⟩
  have few : degree [(3, 5), (5, 5), (1, 3), (3, 5)] v ≤ 4 + 4 :=
    Nat.add_le_add List.count_le_length List.count_le_length
  omega

end ExtractSubGraph

end CuckooGraph
