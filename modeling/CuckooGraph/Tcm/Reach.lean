import CuckooGraph.BreadthFirst
import CuckooGraph.Tcm.Estimates
import Mathlib.Logic.Relation

/-! # Reachability in `TCM`

`transquery` searches each matrix for a path, breadth first. Nodes with one hash
value are one node of a matrix, so a path may be reported which does not exist, but
no path is missed. The rows and columns of a matrix must be numbered alike.
-/

namespace CuckooGraph.Tcm

open CountMin BreadthFirst

variable {P : Params} {hfunc : Nat → String → UInt32} {items : List (String × String × Int)}

section Search

variable {t : Tcm} {i src dest u : Nat} {done rest : List Nat} {s : Search}

theorem mem_positive {a b : Nat} : b ∈ positive P t i a ↔ b < P.width ∧ 0 < t.value i (a * P.width + b) := by
  simp [positive]

/-- What is behind a state of the search. -/
structure Searched (P : Params) (t : Tcm) (i src dest : Nat) (done queue : List Nat) (s : Search) : Prop where
  found : Found (positive P t i) src done queue
  q : s.q = queue
  checked : ∀ v, s.checked v = true ↔ v ∈ done ++ queue
  missed : ∀ u ∈ done, ¬ t.value i (u * P.width + dest) > 0

theorem searched_start (P : Params) (t : Tcm) (i src dest : Nat) :
    Searched P t i src dest [] [src] ⟨[src], Function.update (fun _ => false) src true⟩ where
  found := found_start
  q := rfl
  checked := fun v => by by_cases here : v = src <;> simp [here]
  missed := by simp

theorem visit_marks (s : Search) (x v : Nat) : (s.visit x).checked v = true ↔ v = x ∨ s.checked v = true := by
  unfold Search.visit
  split
  · rename_i seen
    exact ⟨.inr, fun either => either.elim (fun same => same ▸ seen) id⟩
  · by_cases here : v = x <;> simp [here]

theorem appends_q : Appends id (fun (s : Search) v => s.checked v = true) Search.visit Search.q := by
  intro s x
  constructor
  · intro old
    exact congrArg Search.q (if_pos old)
  · intro new
    exact congrArg Search.q (if_neg new)

/-- A node is taken out of the queue, and those it leads to are put in. -/
theorem Searched.pass (searched : Searched P t i src dest done (u :: rest) s)
    (missed : ¬ t.value i (u * P.width + dest) > 0) :
    ∃ fresh, Searched P t i src dest (done ++ [u]) (rest ++ fresh)
      ((positive P t i u).foldl Search.visit { s with q := rest }) := by
  obtain ⟨fresh, once, members, checked, logs⟩ :=
    scan_fresh id (fun (s : Search) v => s.checked v = true) Search.visit visit_marks (positive P t i u)
      { s with q := rest }
  have same : (done ++ [u]) ++ (rest ++ fresh) = (done ++ u :: rest) ++ fresh := by simp
  refine ⟨fresh, searched.found.pop once fun v => ?_, logs _ appends_q, fun v => ?_, fun x hx => ?_⟩
  · rw [members, List.map_id, searched.checked]
  · rw [checked, searched.checked, same, List.mem_append (t := fresh)]
  · rcases List.mem_append.mp hx with hx | hx
    · exact searched.missed x hx
    · rwa [List.mem_singleton.mp hx]

theorem reach_lt (inside : src < P.width) {v : Nat} (reached : Reach (positive P t i) src v) : v < P.width := by
  by_cases away : v = src
  · exact away ▸ inside
  · obtain ⟨u, -, hv, -⟩ := hop_pred reached away
    exact (mem_positive.mp hv).1

theorem Searched.length_le (searched : Searched P t i src dest done rest s) (inside : src < P.width) :
    done.length + rest.length ≤ P.width := by
  have below : done ++ rest ⊆ List.range P.width := fun v hv =>
    List.mem_range.mpr (reach_lt inside (searched.found.reached v hv))
  have bound := (searched.found.nodup.subperm below).length_le
  rwa [List.length_append, List.length_range] at bound

/-- The search ends with an answer: does a node that is reached lead to the other one? -/
theorem search_iff (inside : src < P.width) (fuel : Nat) {queue : List Nat} (searched : Searched P t i src dest done queue s)
    (enough : P.width + 1 ≤ fuel + done.length) :
    ∃ found, search P t i dest fuel s = some found ∧
      (found = true ↔ ∃ u, Reach (positive P t i) src u ∧ 0 < t.value i (u * P.width + dest)) := by
  have bound := searched.length_le inside
  induction fuel generalizing done queue s with
  | zero => omega
  | succ fuel ih =>
      have raw := searched.q
      cases queue with
      | nil =>
          simp only [search, raw]
          refine ⟨false, rfl, fun never => absurd never Bool.false_ne_true, ?_⟩
          rintro ⟨u, reached, edge⟩
          exact absurd edge (searched.missed u (searched.found.complete.mpr reached))
      | cons u rest =>
          simp only [search, raw]
          by_cases here : t.value i (u * P.width + dest) > 0
          · simp only [if_pos here]
            exact ⟨true, rfl, fun _ => ⟨u, searched.found.reached u (by simp), here⟩, fun _ => rfl⟩
          · simp only [if_neg here]
            obtain ⟨fresh, passed⟩ := searched.pass here
            refine ih passed ?_ (passed.length_le inside)
            rw [List.length_append, List.length_singleton]
            omega

end Search

/-- A matrix leads from a row to the row with the number of a column. -/
def Leads (P : Params) (hfunc : Nat → String → UInt32) (items : List (String × String × Int)) (i a b : Nat) : Prop :=
  ∃ e ∈ edges items, hash1 P hfunc i e.1.1 = a ∧ hash2 P hfunc i e.1.2 = b ∧ 0 < e.2

/-- An edge with a weight. -/
def Joined (items : List (String × String × Int)) (x y : String) : Prop := ∃ e ∈ edges items, e.1 = (x, y) ∧ 0 < e.2

theorem Fits.mem_positive_inserts (fits : Fits items) {i : Nat} (hi : i < P.hashnum) {a b : Nat} (hb : b < P.width) :
    0 < (inserts P hfunc items).value i (a * P.width + b) ↔ Leads P hfunc items i a b := by
  rw [inserts_value items hi, load_pos fits.edges_nonneg]
  refine exists_congr fun e => and_congr_right fun _ => ?_
  rw [place, place_inj (hash2_lt i e.1.2) hb, and_assoc]

/-- The nodes are numbered alike in the rows and in the columns. -/
theorem hash2_eq (square : P.width = P.depth) (i : Nat) (x : String) : hash2 P hfunc i x = hash1 P hfunc i x := by
  rw [hash1, hash2, square]

theorem Fits.joins_iff (fits : Fits items) (square : P.width = P.depth) {i : Nat} (hi : i < P.hashnum) (v1 v2 : String) :
    ∃ found, joins P hfunc (inserts P hfunc items) i v1 v2 = some found ∧
      (found = true ↔ Relation.TransGen (Leads P hfunc items i) (hash1 P hfunc i v1) (hash2 P hfunc i v2)) := by
  have inside : hash1 P hfunc i v1 < P.width := square ▸ hash1_lt i v1
  obtain ⟨found, ends, answer⟩ := search_iff inside (P.width + 1)
    (searched_start P (inserts P hfunc items) i (hash1 P hfunc i v1) (hash2 P hfunc i v2)) (Nat.le_refl _)
  have leads : ∀ a b, b ∈ positive P (inserts P hfunc items) i a ↔ Leads P hfunc items i a b := by
    intro a b
    rw [mem_positive]
    constructor
    · rintro ⟨hb, edge⟩
      exact (fits.mem_positive_inserts hi hb).mp edge
    · rintro ⟨e, he, first, rfl, weighs⟩
      exact ⟨hash2_lt i e.1.2, (fits.mem_positive_inserts hi (hash2_lt i e.1.2)).mpr ⟨e, he, first, rfl, weighs⟩⟩
  simp only [reach_iff, leads, fits.mem_positive_inserts hi (hash2_lt i v2)] at answer
  simp only [joins]
  split
  · rename_i edge
    exact ⟨true, rfl, fun _ => .single ((fits.mem_positive_inserts hi (hash2_lt i v2)).mp edge), fun _ => rfl⟩
  · exact ⟨found, ends, answer.trans Relation.TransGen.tail'_iff.symm⟩

/-- If each pass ends, so does the loop over all matrices. -/
theorem allM_iff {p : Nat → Option Bool} {q : Nat → Prop} {is : List Nat}
    (each : ∀ i ∈ is, ∃ b, p i = some b ∧ (b = true ↔ q i)) : ∃ b, is.allM p = some b ∧ (b = true ↔ ∀ i ∈ is, q i) := by
  induction is with
  | nil => exact ⟨true, rfl, by simp⟩
  | cons i is ih =>
      obtain ⟨first, later⟩ := List.forall_mem_cons.mp each
      obtain ⟨b, done, here⟩ := first
      obtain ⟨all, rest, there⟩ := ih later
      rw [List.allM, done]
      cases b with
      | true => exact ⟨all, rest, by rw [there, List.forall_mem_cons, and_iff_right (here.mp rfl)]⟩
      | false => exact ⟨false, rfl, by simp [← here]⟩

theorem mem_names {e : (String × String) × Int} (he : e ∈ edges items) : e.1.1 ∈ names items ∧ e.1.2 ∈ names items := by
  obtain ⟨i, hi, rfl⟩ := List.mem_map.mp he
  exact ⟨List.mem_flatMap.mpr ⟨i, hi, by simp⟩, List.mem_flatMap.mpr ⟨i, hi, by simp⟩⟩

/-- A path of a matrix is one of the names, if no two names have one hash value in it. -/
theorem joined_of_leads (square : P.width = P.depth) {i : Nat} {v1 v2 : String}
    (apart : Set.InjOn (hash1 P hfunc i) {x | x ∈ v1 :: v2 :: names items})
    (path : Relation.TransGen (Leads P hfunc items i) (hash1 P hfunc i v1) (hash2 P hfunc i v2)) :
    Relation.TransGen (Joined items) v1 v2 := by
  have named : ∀ {x}, x ∈ names items → x ∈ v1 :: v2 :: names items := fun hx =>
    List.mem_cons_of_mem _ (List.mem_cons_of_mem _ hx)
  have lifted : ∀ b, Relation.TransGen (Leads P hfunc items i) (hash1 P hfunc i v1) b →
      ∃ y ∈ names items, hash1 P hfunc i y = b ∧ Relation.TransGen (Joined items) v1 y := by
    intro b path
    induction path with
    | single edge =>
        obtain ⟨e, he, first, last, weighs⟩ := edge
        obtain ⟨h1, h2⟩ := mem_names he
        have source : e.1.1 = v1 := apart (named h1) List.mem_cons_self first
        exact ⟨e.1.2, h2, by rw [← hash2_eq square, last], .single ⟨e, he, Prod.ext source rfl, weighs⟩⟩
    | tail _ edge ih =>
        obtain ⟨y, hy, rfl, path⟩ := ih
        obtain ⟨e, he, first, last, weighs⟩ := edge
        obtain ⟨h1, h2⟩ := mem_names he
        have source : e.1.1 = y := apart (named h1) (named hy) first
        exact ⟨e.1.2, h2, by rw [← hash2_eq square, last], path.tail ⟨e, he, Prod.ext source rfl, weighs⟩⟩
  obtain ⟨y, hy, same, path⟩ := lifted _ path
  have target : y = v2 :=
    apart (named hy) (List.mem_cons_of_mem _ List.mem_cons_self) (by rw [same, hash2_eq square])
  exact target ▸ path

theorem leads_of_joined (square : P.width = P.depth) (i : Nat) {v1 v2 : String}
    (path : Relation.TransGen (Joined items) v1 v2) :
    Relation.TransGen (Leads P hfunc items i) (hash1 P hfunc i v1) (hash2 P hfunc i v2) := by
  rw [hash2_eq square]
  refine path.lift (hash1 P hfunc i) fun x y edge => ?_
  obtain ⟨e, he, same, weighs⟩ := edge
  exact ⟨e, he, by rw [same], by rw [same, hash2_eq square], weighs⟩

/-- `transquery` ends, and tells whether there is a path in every matrix. No path of edges
    is missed, and none is made up if one matrix keeps all names apart. -/
theorem transquery_exact (fits : Fits items) (square : P.width = P.depth) (v1 v2 : String) :
    ∃ answer, transquery P hfunc (inserts P hfunc items) v1 v2 = some answer ∧
      (answer = true ↔
        ∀ i < P.hashnum, Relation.TransGen (Leads P hfunc items i) (hash1 P hfunc i v1) (hash2 P hfunc i v2)) ∧
      (Relation.TransGen (Joined items) v1 v2 → answer = true) ∧
      ∀ i < P.hashnum, Set.InjOn (hash1 P hfunc i) {x | x ∈ v1 :: v2 :: names items} →
        answer = true → Relation.TransGen (Joined items) v1 v2 := by
  obtain ⟨answer, ends, all⟩ := allM_iff fun i (hi : i ∈ List.range P.hashnum) =>
    @Fits.joins_iff P hfunc items fits square i (List.mem_range.mp hi) v1 v2
  simp only [List.mem_range] at all
  refine ⟨answer, ends, all, fun path => all.mpr fun i _ => leads_of_joined square i path, fun i hi apart found => ?_⟩
  exact joined_of_leads square apart (all.mp found i hi)

theorem transquery_exact_small : ∃ answer,
    transquery small rolling (inserts small rolling sampleItems) "a" "d" = some answer ∧
      (answer = true ↔ ∀ i < small.hashnum, Relation.TransGen (Leads small rolling sampleItems i)
        (hash1 small rolling i "a") (hash2 small rolling i "d")) ∧
      (Relation.TransGen (Joined sampleItems) "a" "d" → answer = true) ∧
      ∀ i < small.hashnum, Set.InjOn (hash1 small rolling i) {x | x ∈ "a" :: "d" :: names sampleItems} →
        answer = true → Relation.TransGen (Joined sampleItems) "a" "d" :=
  transquery_exact ⟨by decide, by decide⟩ rfl "a" "d"

end CuckooGraph.Tcm
