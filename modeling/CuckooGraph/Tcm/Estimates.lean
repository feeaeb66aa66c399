import CuckooGraph.CountMin
import CuckooGraph.Tcm

/-! # The estimates of `TCM`

Each matrix adds up the weights of the edges, and of the edges from or to a node.
If no weight is negative and no `int` overflows, an answer is never too low.
-/

namespace CuckooGraph.Tcm

open CountMin

variable {P : Params} {hfunc : Nat → String → UInt32} (items : List (String × String × Int))

/-- The edges of the items, with the weights. -/
def edges : List ((String × String) × Int) := items.map fun i => ((i.1, i.2.1), i.2.2)

/-- The names of the items. -/
def names : List String := items.flatMap fun i => [i.1, i.2.1]

theorem insertRow_value (v1 v2 : String) (weight : Int) (t : Tcm) (i row : Nat) (c : Nat) :
    (insertRow P hfunc v1 v2 weight t row).value i c =
      if i = row ∧ place P hfunc i (v1, v2) = c then t.value i c + weight else t.value i c := by
  unfold insertRow
  by_cases here : i = row
  · subst here
    by_cases there : place P hfunc i (v1, v2) = c
    · subst there
      simp
    · simp [there, Ne.symm there]
  · simp [here]

theorem foldl_insertRow_value (v1 v2 : String) (weight : Int) (t : Tcm) (i c : Nat) {rows : List Nat} (once : rows.Nodup) :
    (rows.foldl (insertRow P hfunc v1 v2 weight) t).value i c =
      if i ∈ rows ∧ place P hfunc i (v1, v2) = c then t.value i c + weight else t.value i c := by
  induction rows generalizing t with
  | nil => simp
  | cons row rows ih =>
      obtain ⟨new, once⟩ := List.nodup_cons.mp once
      rw [List.foldl_cons, ih _ once, insertRow_value]
      by_cases here : i = row
      · subst here
        simp [new]
      · simp [here]

/-- A cell of a matrix holds the weights of the edges which come to it. -/
theorem inserts_value {i : Nat} (hi : i < P.hashnum) (c : Nat) :
    (inserts P hfunc items).value i c = load (place P hfunc i) (edges items) c := by
  induction items using List.reverseRecOn with
  | nil => rfl
  | append_singleton items item ih =>
      rw [inserts, List.foldl_append, List.foldl_cons, List.foldl_nil, insert,
        foldl_insertRow_value _ _ _ _ _ _ List.nodup_range, edges, List.map_append, List.map_singleton, load_concat]
      rw [inserts, edges] at ih
      rw [ih]
      by_cases here : place P hfunc i (item.1, item.2.1) = c <;> simp [here, hi]

/-- No weight is negative, and no `int` overflows. -/
structure Fits : Prop where
  nonneg : ∀ i ∈ items, 0 ≤ i.2.2
  total : (items.map fun i => i.2.2).sum ≤ INT32_MAX

variable {items}

theorem Fits.edges_nonneg (fits : Fits items) : ∀ e ∈ edges items, 0 ≤ e.2 := fun e he => by
  obtain ⟨i, hi, rfl⟩ := List.mem_map.mp he
  exact fits.nonneg i hi

theorem edges_sum : ((edges items).map Prod.snd).sum = (items.map fun i => i.2.2).sum := by
  rw [edges, List.map_map]
  rfl

/-- The weight of an edge is never estimated too low; the estimate is exact if and
    only if there is a matrix in which no other edge with a weight is in its place. -/
theorem query_estimates (fits : Fits items) (v1 v2 : String) :
    weight (edges items) (v1, v2) ≤ query P hfunc (inserts P hfunc items) v1 v2 ∧
      (query P hfunc (inserts P hfunc items) v1 v2 = weight (edges items) (v1, v2) ↔
        ∃ i < P.hashnum, ∀ e ∈ edges items,
          place P hfunc i e.1 = place P hfunc i (v1, v2) → e.1 ≠ (v1, v2) → e.2 = 0) := by
  have rows : query P hfunc (inserts P hfunc items) v1 v2 =
      (((List.range P.hashnum).map (place P hfunc)).map fun h => load h (edges items) (h (v1, v2))).foldl min INT32_MAX := by
    rw [query, List.map_map, List.foldl_map]
    refine List.foldl_ext _ _ _ fun m i hi => ?_
    rw [min_comm, inserts_value _ (List.mem_range.mp hi)]
    rfl
  have some : (List.range P.hashnum).map (place P hfunc) ≠ [] := by
    simpa using P.hashnum_pos.ne'
  rw [rows]
  have answer := estimate _ some INT32_MAX fits.edges_nonneg (edges_sum.trans_le fits.total) (v1, v2)
  simpa only [List.mem_map, exists_exists_and_eq_and, List.mem_range] using answer

/-- A small sketch. -/
def small : Params where
  width := 3
  depth := 3
  hashnum := 3
  usetable := true
  tablesize := 7
  width_pos := by decide
  depth_pos := by decide
  hashnum_pos := by decide
  hashnum_le := by decide
  area_lt := by decide
  table_pos := by decide

/-- A hash function for each matrix. -/
def rolling (i : Nat) (s : String) : UInt32 := s.toList.foldl (fun a c => a * 31 + c.val) (UInt32.ofNat i)

def sampleItems : List (String × String × Int) := [("a", "b", 1), ("b", "c", 2), ("a", "c", 3), ("c", "d", 4), ("a", "b", 7)]

theorem query_estimates_small :
    weight (edges sampleItems) ("a", "b") ≤ query small rolling (inserts small rolling sampleItems) "a" "b" ∧
      (query small rolling (inserts small rolling sampleItems) "a" "b" = weight (edges sampleItems) ("a", "b") ↔
        ∃ i < small.hashnum, ∀ e ∈ edges sampleItems,
          place small rolling i e.1 = place small rolling i ("a", "b") → e.1 ≠ ("a", "b") → e.2 = 0) :=
  query_estimates ⟨by decide, by decide⟩ "a" "b"

section Nodes

variable (type : Int)

/-- The end of an edge at which a node query looks. -/
def endOf (e : String × String) : String := if type = 0 then e.1 else e.2

/-- The number of the row or column of a node. -/
def slot (P : Params) (hfunc : Nat → String → UInt32) (i : Nat) (v1 : String) : Nat :=
  if type = 0 then hash1 P hfunc i v1 else hash2 P hfunc i v1

/-- The nodes of the items, with the weights of their edges. -/
def ends (items : List (String × String × Int)) : List (String × Int) :=
  (edges items).map fun e => (endOf type e.1, e.2)

theorem hash1_lt (i : Nat) (v1 : String) : hash1 P hfunc i v1 < P.depth := Nat.mod_lt _ P.depth_pos

theorem hash2_lt (i : Nat) (v1 : String) : hash2 P hfunc i v1 < P.width := Nat.mod_lt _ P.width_pos

/-- A place determines a row and a column. -/
theorem place_inj {r r' c c' : Nat} (hc : c < P.width) (hc' : c' < P.width) :
    r * P.width + c = r' * P.width + c' ↔ r = r' ∧ c = c' := by
  constructor
  · intro same
    have row := congrArg (· / P.width) same
    have column := congrArg (· % P.width) same
    simp only [Nat.mul_comm _ P.width, Nat.mul_add_div P.width_pos, Nat.mul_add_mod, Nat.div_eq_of_lt hc,
      Nat.div_eq_of_lt hc', Nat.mod_eq_of_lt hc, Nat.mod_eq_of_lt hc', Nat.add_zero] at row column
    exact ⟨row, column⟩
  · rintro ⟨rfl, rfl⟩
    rfl

theorem nodup_line (i : Nat) (v1 : String) : ((line P hfunc i v1 type).map Prod.snd).Nodup := by
  unfold line
  split <;> rw [List.map_map]
  · refine List.nodup_range.map fun j j' same => ?_
    simpa using same
  · refine List.nodup_range.map fun j j' same => ?_
    simpa [P.width_pos.ne'] using same

/-- The places of a line are those of the edges at a node with its number. -/
theorem mem_line (i : Nat) (v1 : String) (e : String × String) :
    place P hfunc i e ∈ (line P hfunc i v1 type).map Prod.snd ↔
      slot type P hfunc i (endOf type e) = slot type P hfunc i v1 := by
  unfold line slot endOf
  by_cases out : type = 0
  · simp only [out, if_true, List.map_map, List.mem_map, List.mem_range, Function.comp_apply, place]
    constructor
    · rintro ⟨j, hj, same⟩
      exact ((place_inj hj (hash2_lt i e.2)).mp same).1.symm
    · intro same
      exact ⟨_, hash2_lt i e.2, by rw [same]⟩
  · simp only [out, if_false, List.map_map, List.mem_map, List.mem_range, Function.comp_apply, place]
    constructor
    · rintro ⟨j, -, same⟩
      exact ((place_inj (hash2_lt i v1) (hash2_lt i e.2)).mp same).2.symm
    · intro same
      exact ⟨_, hash1_lt i e.1, by rw [same]⟩

variable {type}

theorem Fits.ends_nonneg (fits : Fits items) : ∀ e ∈ ends type items, 0 ≤ e.2 := fun e he => by
  obtain ⟨x, hx, rfl⟩ := List.mem_map.mp he
  exact fits.edges_nonneg x hx

theorem ends_sum : ((ends type items).map Prod.snd).sum = (items.map fun i => i.2.2).sum := by
  rw [← edges_sum, ends, List.map_map]
  rfl

/-- A line holds the weights of the edges at the nodes with its number. -/
theorem sum_line {i : Nat} (hi : i < P.hashnum) (v1 : String) :
    ((line P hfunc i v1 type).map fun c => (inserts P hfunc items).value i c.2).sum =
      load (slot type P hfunc i) (ends type items) (slot type P hfunc i v1) := by
  have cells : (((line P hfunc i v1 type).map Prod.snd).map (load (place P hfunc i) (edges items))).sum =
      load (fun e => slot type P hfunc i (endOf type e)) (edges items) (slot type P hfunc i v1) :=
    sum_load _ _ (nodup_line type i v1) fun e _ => mem_line type i v1 e.1
  rw [ends, load_map, ← cells, List.map_map]
  exact congrArg List.sum (List.map_congr_left fun c _ => inserts_value _ hi c.2)

/-- Ending early does not change the least sum. -/
theorem least_eq {sum : Nat → Int} {is : List Nat} (nonneg : ∀ i ∈ is, 0 ≤ sum i) (m : Int) :
    least sum is m = (is.map sum).foldl min m := by
  induction is generalizing m with
  | nil => rfl
  | cons i is ih =>
      obtain ⟨-, rest⟩ := List.forall_mem_cons.mp nonneg
      simp only [least, List.map_cons, List.foldl_cons, min_comm m]
      by_cases zero : min (sum i) m = 0
      · have all : ∀ s ∈ is.map sum, 0 ≤ s := fun s hs => by
          obtain ⟨j, hj, rfl⟩ := List.mem_map.mp hs
          exact rest j hj
        rw [if_pos zero, zero]
        exact le_antisymm (le_foldl_min (le_refl 0) all) foldl_min_le.1
      · rw [if_neg zero, ih rest]

/-- The sum of the weights from or to a node is never estimated too low; the
    estimate is exact if and only if there is a matrix in which no edge of another
    node with the same number weighs anything. -/
theorem nodequery_estimates (fits : Fits items) (v1 : String) (type : Int) :
    weight (ends type items) v1 ≤ nodequery P hfunc (inserts P hfunc items) v1 type ∧
      (nodequery P hfunc (inserts P hfunc items) v1 type = weight (ends type items) v1 ↔
        ∃ i < P.hashnum, ∀ e ∈ ends type items,
          slot type P hfunc i e.1 = slot type P hfunc i v1 → e.1 ≠ v1 → e.2 = 0) := by
  have lines : ∀ i ∈ List.range P.hashnum,
      ((line P hfunc i v1 type).map fun c => (inserts P hfunc items).value i c.2).sum =
        load (slot type P hfunc i) (ends type items) (slot type P hfunc i v1) :=
    fun i hi => sum_line (List.mem_range.mp hi) v1
  have rows : nodequery P hfunc (inserts P hfunc items) v1 type =
      (((List.range P.hashnum).map (slot type P hfunc)).map fun h => load h (ends type items) (h v1)).foldl min
        INT32_MAX := by
    rw [nodequery, least_eq, List.map_map]
    · exact congrArg (List.foldl min INT32_MAX) (List.map_congr_left lines)
    · intro i hi
      rw [lines i hi]
      exact load_nonneg fits.ends_nonneg
  have some : (List.range P.hashnum).map (slot type P hfunc) ≠ [] := by
    simpa using P.hashnum_pos.ne'
  rw [rows]
  have answer := estimate _ some INT32_MAX (@Fits.ends_nonneg items type fits) (ends_sum.trans_le fits.total) v1
  simpa only [List.mem_map, exists_exists_and_eq_and, List.mem_range] using answer

theorem nodequery_estimates_small :
    weight (ends 0 sampleItems) "a" ≤ nodequery small rolling (inserts small rolling sampleItems) "a" 0 ∧
      (nodequery small rolling (inserts small rolling sampleItems) "a" 0 = weight (ends 0 sampleItems) "a" ↔
        ∃ i < small.hashnum, ∀ e ∈ ends 0 sampleItems,
          slot 0 small rolling i e.1 = slot 0 small rolling i "a" → e.1 ≠ "a" → e.2 = 0) :=
  nodequery_estimates ⟨by decide, by decide⟩ "a" 0

end Nodes

end CuckooGraph.Tcm
