import CuckooGraph.Unweighted.Successors
import Mathlib.Data.Rat.Defs
import Mathlib.Data.List.FinRange
import Mathlib.Data.List.ProdSigma

/-! # Page rank

`PageRank_CuckooGraph` fills a matrix from `GetNeighbors`, `PageRank_CuckooGraph2`
asks for each edge where it needs an entry. The ids are 1 to `N`, the indices 0 to
`N - 1`. Arithmetic is exact.
-/

namespace CuckooGraph

open TwoLayer Holemerge

namespace PageRank

variable {N : Nat}

/-- The variable `M`, a `vector<vector<double>>`. -/
abbrev Matrix (N : Nat) := Fin N → Fin N → ℚ

/-- An assignment to one entry. -/
def Matrix.alter (M : Matrix N) (i j : Fin N) (f : ℚ → ℚ) : Matrix N :=
  fun i' j' => if (i', j') = (i, j) then f (M i' j') else M i' j'

/-- An index which is used for an id, or nothing if it is out of range. -/
def index (N : Nat) (i : Int) : Option (Fin N) :=
  if h : 0 ≤ i ∧ i < N then some ⟨i.toNat, by omega⟩ else none

/-- What is done for the id `i + 1`. -/
def column (neighbors : Key → List (Key × Nat)) (M : Matrix N) (i : Fin N) : Option (Matrix N) :=
  let temp := neighbors (i + 1)
  if temp.length ≠ 0 then do
    let M ← temp.foldlM (fun M EEE => (index N (EEE.1 - 1)).map fun r => M.alter r i (· + 1)) M
    return (List.finRange N).foldl (fun M j => M.alter j i (· / temp.length)) M
  else temp.foldlM (fun M EEE => (index N (EEE.1 - 1)).map fun r => M.alter r i fun _ => 0) M

/-- The matrix of `PageRank_CuckooGraph`. -/
def matrix (neighbors : Key → List (Key × Nat)) (d : ℚ) : Option (Matrix N) := do
  let M ← (List.finRange N).foldlM (column neighbors) fun _ _ => 0
  return (List.finRange N).foldl (fun M i =>
    (List.finRange N).foldl (fun M j => M.alter i j fun x => d * x + (1 - d) * (1 / N)) M) M

/-- An entry as `PageRank_CuckooGraph2` has it. -/
def entry (query : Edge → Int) (jj : Fin N → Nat) (d : ℚ) : Matrix N := fun i j =>
  let sz : ℚ := jj j
  let M : ℚ := 0
  let M := if query ⟨j + 1, i + 1⟩ ≠ 0 then (M + 1) / sz else M
  d * M + (1 - d) * (1 / N)

/-- The loop which both have: the number of iterations, and `pagerank`. -/
def iterate (M : Matrix N) (e : ℚ) : Nat → (Fin N → ℚ) → Nat × (Fin N → ℚ)
  | 0, pagerank => (0, pagerank)
  | maxIterations + 1, pagerank =>
      let newpagerank i := (List.finRange N).foldl (fun sum j => sum + M i j * pagerank j) 0
      let dif := (List.finRange N).foldl (fun dif i => dif + |pagerank i - newpagerank i|) 0
      if dif < e then (1, newpagerank)
      else
        let r := iterate M e maxIterations newpagerank
        (r.1 + 1, r.2)

end PageRank

open PageRank

/-- `PageRank_CuckooGraph`, or nothing if an index is out of range. -/
def pageRank (N : Nat) (d e : ℚ) (maxIterations : Nat) (neighbors : Key → List (Key × Nat)) :
    Option (Nat × (Fin N → ℚ)) := do
  let M ← matrix neighbors d
  return iterate M e maxIterations fun _ => 1

/-- `PageRank_CuckooGraph2`. A size is at most `N`, which is an `int`. -/
def pageRank2 (N : Nat) (d e : ℚ) (maxIterations : Nat) (neighbors : Key → List (Key × Nat))
    (query : Edge → Int) : Nat × (Fin N → ℚ) :=
  let jj := fun j : Fin N => (neighbors (j + 1)).length
  iterate (entry query jj d) e maxIterations fun _ => 1

namespace PageRank

variable {N : Nat} {neighbors : Key → List (Key × Nat)}

/-- Assignments in a loop change an entry as often as it is met. -/
theorem foldl_alter (f : ℚ → ℚ) (cells : List (Fin N × Fin N)) (M : Matrix N) (i j : Fin N) :
    cells.foldl (fun M p => M.alter p.1 p.2 f) M i j = f^[cells.count (i, j)] (M i j) := by
  induction cells generalizing M with
  | nil => rfl
  | cons p cells ih =>
      rw [List.foldl_cons, ih, List.count_cons, Matrix.alter]
      by_cases here : p = (i, j)
      · simp [here]
      · simp [here, Ne.symm here]

/-- The entries of a column `c` whose rows are listed once. -/
theorem foldl_column (f : ℚ → ℚ) {rows : List (Fin N)} (once : rows.Nodup) (c : Fin N) (M : Matrix N)
    (i j : Fin N) : rows.foldl (fun M r => M.alter r c f) M i j =
      if i ∈ rows ∧ j = c then f (M i j) else M i j := by
  have cells := foldl_alter f (rows.map (·, c)) M i j
  rw [List.foldl_map] at cells
  rw [cells]
  have nodup : (rows.map (·, c)).Nodup := once.map fun a b same => (Prod.mk.inj same).1
  by_cases here : i ∈ rows ∧ j = c
  · have once := List.count_eq_one_of_mem nodup (List.mem_map.mpr ⟨i, here.1, congrArg _ here.2.symm⟩)
    rw [if_pos here, once, Function.iterate_one]
  · have never : (i, j) ∉ rows.map (·, c) := by
      simpa [eq_comm] using here
    rw [if_neg here, List.count_eq_zero_of_not_mem never, Function.iterate_zero, id]

/-- The ids listed are rows of the matrix. -/
theorem index_rows {ids : List Int} (inside : ∀ x ∈ ids, 1 ≤ x ∧ x ≤ N) :
    ∃ rows : List (Fin N), ids = rows.map (fun r : Fin N => (r : Int) + 1) := by
  induction ids with
  | nil => exact ⟨[], rfl⟩
  | cons x ids ih =>
      obtain ⟨rows, same⟩ := ih fun y hy => inside y (List.mem_cons_of_mem x hy)
      have := inside x List.mem_cons_self
      refine ⟨⟨(x - 1).toNat, by omega⟩ :: rows, ?_⟩
      rw [same, List.map_cons]
      congr 1
      simp only
      omega

theorem index_eq (r : Fin N) : index N ((r : Int) + 1 - 1) = some r := by
  have := r.isLt
  simp only [index]
  split
  · simp
  · omega

theorem foldlM_index (f : ℚ → ℚ) (rows : List (Fin N)) (i : Fin N) (M : Matrix N) :
    (rows.map fun r : Fin N => (((r : Int) + 1, 1) : Key × Nat)).foldlM
      (fun M EEE => (index N (EEE.1 - 1)).map fun r => M.alter r i f) M =
      some (rows.foldl (fun M r => M.alter r i f) M) := by
  induction rows generalizing M with
  | nil => rfl
  | cons r rows ih =>
      simp only [List.map_cons, List.foldlM_cons, index_eq, Option.map_some, Option.bind_eq_bind, Option.bind_some,
        List.foldl_cons]
      exact ih _

/-- The part of the rank of `j` which goes to `i`. -/
def share (next : Key → List Key) : Matrix N := fun i j =>
  if ((i : Int) + 1) ∈ next (j + 1) then 1 / ((next (j + 1)).length : ℚ) else 0

section Fill

variable {next : Key → List Key} (listed : ∀ u, neighbors u = (next u).map (·, 1)) (once : ∀ u, (next u).Nodup)
  (inside : ∀ u, ∀ x ∈ next u, 1 ≤ x ∧ x ≤ N)

include listed once inside

theorem column_eq (c : Fin N) (M : Matrix N) (empty : ∀ i, M i c = 0) :
    column neighbors M c = some fun i j => if j = c then share next i j else M i j := by
  obtain ⟨rows, same⟩ := index_rows (inside (c + 1))
  have temp : neighbors (c + 1) = rows.map fun r : Fin N => ((r : Int) + 1, 1) := by
    rw [listed, same, List.map_map]
    rfl
  have nodup : rows.Nodup := by
    have := once (c + 1)
    rw [same] at this
    exact this.of_map
  have members : ∀ i : Fin N, ((i : Int) + 1) ∈ next (c + 1) ↔ i ∈ rows := by
    intro i
    rw [same]
    simp [Fin.val_inj]
  have count : (next (c + 1)).length = rows.length := by
    rw [same, List.length_map]
  simp only [column, temp, foldlM_index, List.length_map]
  split
  · refine congrArg some (funext fun i => funext fun j => ?_)
    rw [foldl_column _ (List.nodup_finRange N), foldl_column _ nodup]
    by_cases here : j = c
    · subst here
      by_cases hi : i ∈ rows
      · simp [hi, share, members, count, empty]
      · simp [hi, share, members, empty]
    · simp [here]
  · rename_i none
    have none : rows = [] := by simpa using none
    subst none
    refine congrArg some (funext fun i => funext fun j => ?_)
    by_cases here : j = c
    · subst here
      simp [share, members, empty]
    · simp [here]

/-- The columns which were filled. -/
theorem foldlM_column {cs : List (Fin N)} (nodup : cs.Nodup) (M : Matrix N) (empty : ∀ c ∈ cs, ∀ i, M i c = 0) :
    cs.foldlM (column neighbors) M = some fun i j => if j ∈ cs then share next i j else M i j := by
  induction cs generalizing M with
  | nil => simp
  | cons c cs ih =>
      obtain ⟨new, nodup⟩ := List.nodup_cons.mp nodup
      rw [List.foldlM_cons, column_eq listed once inside c M (empty c List.mem_cons_self)]
      have rest := ih nodup (fun i j => if j = c then share next i j else M i j) fun c' hc' i => by
        have other : c' ≠ c := fun same => new (same ▸ hc')
        rw [if_neg other]
        exact empty c' (List.mem_cons_of_mem c hc') i
      refine rest.trans (congrArg some (funext fun i => funext fun j => ?_))
      by_cases here : j = c
      · simp [here]
      · simp [here]

theorem matrix_eq (d : ℚ) :
    matrix neighbors d = some fun i j : Fin N => d * share next i j + (1 - d) * (1 / N) := by
  have filled := foldlM_column listed once inside (List.nodup_finRange N) (fun _ _ => 0) fun _ _ _ => rfl
  simp only [matrix, filled, List.mem_finRange, if_true, Option.bind_eq_bind, Option.bind_some]
  refine congrArg some (funext fun i => funext fun j => ?_)
  have cells := foldl_alter (fun x => d * x + (1 - d) * (1 / N)) (List.finRange N ×ˢ List.finRange N)
    (share next) i j
  have one := List.count_eq_one_of_mem ((List.nodup_finRange N).product (List.nodup_finRange N))
    (List.mem_product.mpr ⟨List.mem_finRange i, List.mem_finRange j⟩)
  rw [one, Function.iterate_one] at cells
  rw [← cells]
  simp only [SProd.sprod, List.product, List.foldl_flatMap, List.foldl_map]

end Fill

theorem entry_eq {query : Edge → Int} (next : Key → List Key)
    (asked : ∀ i j : Fin N, query ⟨(j : Int) + 1, (i : Int) + 1⟩ ≠ 0 ↔ ((i : Int) + 1) ∈ next (j + 1)) (d : ℚ) :
    entry query (fun j : Fin N => (next (j + 1)).length) d =
      fun i j => d * share next i j + (1 - d) * (1 / N) := by
  funext i j
  simp only [entry, asked, share, zero_add]

end PageRank

/-- No index is out of range, and both come to the same ranks in as many iterations. -/
theorem pageRank_agree (E : Env) {l1 l2 : Nat} (sizes : 2 ≤ l2 ∧ l2 ≤ l1) (s1 s2 : Int) {N : Nat} {es : List Edge}
    (inside : ∀ e ∈ es, (1 ≤ e.src ∧ e.src ≤ N) ∧ 1 ≤ e.dst ∧ e.dst ≤ N) (d e : ℚ) (maxIterations : Nat) :
    let s := insertEdges E (Memory.initial, fresh l1 l2 s1 s2) es
    pageRank N d e maxIterations (s.2.getNeighbors E s.1) =
      some (pageRank2 N d e maxIterations (s.2.getNeighbors E s.1) (s.2.query E s.1)) := by
  intro s
  have known : ∀ e ∈ es, e.src ≠ 0 ∧ e.dst ≠ 0 := by
    intro e he
    obtain ⟨⟨src, -⟩, dst, -⟩ := inside e he
    exact ⟨(Int.lt_of_lt_of_le Int.zero_lt_one src).ne', (Int.lt_of_lt_of_le Int.zero_lt_one dst).ne'⟩
  obtain ⟨-, asked⟩ := insertEdges_fresh E sizes s1 s2 known
  choose listed once members using fun u => getNeighbors_insertEdges E sizes s1 s2 known u
  have rows : ∀ u, ∀ x ∈ (s.2.getNeighbors E s.1 u).map Prod.fst, 1 ≤ x ∧ x ≤ N :=
    fun u x hx => (inside _ ((members u x).mp hx)).2
  have same : ∀ i j : Fin N, s.2.query E s.1 ⟨j + 1, i + 1⟩ ≠ 0 ↔
      ((i : Int) + 1) ∈ (s.2.getNeighbors E s.1 (j + 1)).map Prod.fst := by
    intro i j
    have positive : ∀ k : Fin N, ((k : Int) + 1) ≠ 0 := fun k => by omega
    rw [asked ⟨j + 1, i + 1⟩ (positive j) (positive i)]
    exact (members _ _).symm
  have filled := matrix_eq listed once rows d
  have entries := entry_eq (fun u => (s.2.getNeighbors E s.1 u).map Prod.fst) same d
  simp only [List.length_map] at entries
  rw [pageRank, filled, pageRank2, entries]
  rfl

/-- Nothing leads on from 3. -/
theorem pageRank_agree_star :
    let s := insertEdges colliding (Memory.initial, fresh bl1 bl2 0 221) [⟨1, 2⟩, ⟨1, 3⟩, ⟨2, 1⟩, ⟨1, 2⟩]
    pageRank 3 (17 / 20) (1 / 10) 100 (s.2.getNeighbors colliding s.1) =
      some (pageRank2 3 (17 / 20) (1 / 10) 100 (s.2.getNeighbors colliding s.1) (s.2.query colliding s.1)) :=
  pageRank_agree colliding default_sizes 0 221 (by decide) (17 / 20) (1 / 10) 100

end CuckooGraph
