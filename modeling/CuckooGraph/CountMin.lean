import Mathlib.Algebra.BigOperators.Group.List.Basic
import Mathlib.Algebra.BigOperators.Group.Finset.Basic
import Mathlib.Algebra.Order.BigOperators.Group.List
import Mathlib.Algebra.Order.Group.Int
import Mathlib.Tactic

/-! # Counting with collisions

A row adds up what comes under keys with one hash value in one cell. A cell holds
the weight of a key and an excess, that of the other keys in it. If nothing weighs
less than 0, the least of several cells is no less than the weight, and equals it
if and only if the excess is 0 in one of the rows.
-/

namespace CountMin

variable {K C : Type} [DecidableEq K] [DecidableEq C]

/-- What comes under a key. -/
def weight (items : List (K × Int)) (k : K) : Int := ((items.filter fun i => i.1 = k).map Prod.snd).sum

/-- What a cell holds. -/
def load (h : K → C) (items : List (K × Int)) (c : C) : Int := ((items.filter fun i => h i.1 = c).map Prod.snd).sum

/-- What the cell of a key holds of other keys. -/
def excess (h : K → C) (items : List (K × Int)) (k : K) : Int :=
  ((items.filter fun i => h i.1 = h k ∧ i.1 ≠ k).map Prod.snd).sum

variable {h : K → C} {items : List (K × Int)} {k : K} {c : C}

omit [DecidableEq K] in
theorem load_concat (items : List (K × Int)) (i : K × Int) :
    load h (items ++ [i]) c = load h items c + if h i.1 = c then i.2 else 0 := by
  unfold load
  rw [List.filter_append, List.map_append, List.sum_append]
  by_cases here : h i.1 = c <;> simp [here]

theorem load_eq (h : K → C) (items : List (K × Int)) (k : K) : load h items (h k) = weight items k + excess h items k := by
  induction items with
  | nil => rfl
  | cons i items ih =>
      unfold load weight excess at ih ⊢
      by_cases same : i.1 = k
      · simp [same, ih, add_assoc]
      · by_cases here : h i.1 = h k
        · simp [same, here, ih]
          ring
        · simp [same, here, ih]

omit [DecidableEq K] [DecidableEq C] in
theorem sum_nonneg {p : K × Int → Bool} (nonneg : ∀ i ∈ items, 0 ≤ i.2) : 0 ≤ ((items.filter p).map Prod.snd).sum := by
  refine List.sum_nonneg fun w hw => ?_
  obtain ⟨i, hi, rfl⟩ := List.mem_map.mp hw
  exact nonneg i (List.mem_filter.mp hi).1

omit [DecidableEq K] [DecidableEq C] in
theorem sum_eq_zero {p : K × Int → Bool} (nonneg : ∀ i ∈ items, 0 ≤ i.2) :
    ((items.filter p).map Prod.snd).sum = 0 ↔ ∀ i ∈ items, p i = true → i.2 = 0 := by
  induction items with
  | nil => simp
  | cons i items ih =>
      obtain ⟨first, rest⟩ := List.forall_mem_cons.mp nonneg
      rw [List.forall_mem_cons, ← ih rest, List.filter_cons]
      by_cases passes : p i = true
      · have more := sum_nonneg (p := p) rest
        rw [if_pos passes, List.map_cons, List.sum_cons]
        constructor
        · intro zero
          exact ⟨fun _ => by omega, by omega⟩
        · rintro ⟨zero, zeros⟩
          rw [zero passes, zeros, add_zero]
      · simp [passes]

theorem excess_nonneg (nonneg : ∀ i ∈ items, 0 ≤ i.2) : 0 ≤ excess h items k := sum_nonneg nonneg

/-- A row is exact for a key if what else comes to its cell weighs nothing. -/
theorem excess_eq_zero (nonneg : ∀ i ∈ items, 0 ≤ i.2) :
    excess h items k = 0 ↔ ∀ i ∈ items, h i.1 = h k → i.1 ≠ k → i.2 = 0 := by
  rw [excess, sum_eq_zero nonneg]
  simp only [decide_eq_true_eq, and_imp]

omit [DecidableEq K] in
theorem load_nonneg (nonneg : ∀ i ∈ items, 0 ≤ i.2) : 0 ≤ load h items c := sum_nonneg nonneg

omit [DecidableEq K] in
/-- A cell holds something if one of its items weighs something. -/
theorem load_pos (nonneg : ∀ i ∈ items, 0 ≤ i.2) : 0 < load h items c ↔ ∃ i ∈ items, h i.1 = c ∧ 0 < i.2 := by
  have zero : load h items c = 0 ↔ ∀ i ∈ items, h i.1 = c → i.2 = 0 := by
    rw [load, sum_eq_zero nonneg]
    simp only [decide_eq_true_eq]
  have bound := load_nonneg (h := h) (c := c) nonneg
  constructor
  · intro some
    by_contra never
    push Not at never
    have empty := zero.mpr fun i hi here => le_antisymm (never i hi here) (nonneg i hi)
    omega
  · rintro ⟨i, hi, here, positive⟩
    by_contra none
    have := zero.mp (by omega) i hi here
    omega

omit [DecidableEq K] in
theorem load_le_sum (nonneg : ∀ i ∈ items, 0 ≤ i.2) : load h items c ≤ (items.map Prod.snd).sum := by
  induction items with
  | nil => rfl
  | cons i items ih =>
      obtain ⟨first, rest⟩ := List.forall_mem_cons.mp nonneg
      have more := ih rest
      unfold load at more ⊢
      rw [List.filter_cons, List.map_cons, List.sum_cons]
      split
      · rw [List.map_cons, List.sum_cons]
        omega
      · omega

omit [DecidableEq K] in
theorem load_map {J : Type} (f : J → K) (js : List (J × Int)) :
    load h (js.map fun j => (f j.1, j.2)) c = load (fun j => h (f j)) js c := by
  rw [load, load, List.filter_map, List.map_map]
  rfl

omit [DecidableEq K] in
/-- The cells of a row which counts more finely add up to a cell. -/
theorem sum_load {D : Type} [DecidableEq D] (g : K → D) (d : D) {cs : List C} (once : cs.Nodup)
    (fiber : ∀ i ∈ items, h i.1 ∈ cs ↔ g i.1 = d) : (cs.map (load h items)).sum = load g items d := by
  induction items using List.reverseRecOn with
  | nil =>
      have empty : load h ([] : List (K × Int)) = fun _ => 0 := rfl
      simp [empty, load]
  | append_singleton items i ih =>
      have old := ih fun x hx => fiber x (List.mem_append_left _ hx)
      have new : (cs.map fun c => if h i.1 = c then i.2 else 0).sum = if g i.1 = d then i.2 else 0 := by
        rw [← List.sum_toFinset _ once, Finset.sum_ite_eq]
        simp only [List.mem_toFinset, fiber i (by simp)]
      rw [load_concat, ← old, ← new, ← List.sum_map_add]
      exact congrArg List.sum (List.map_congr_left fun c _ => load_concat items i)

section Least

variable {top m : Int} {ws : List Int}

theorem foldl_min_le : ws.foldl min top ≤ top ∧ ∀ w ∈ ws, ws.foldl min top ≤ w := by
  induction ws generalizing top with
  | nil => simp
  | cons w ws ih =>
      obtain ⟨first, rest⟩ := @ih (min top w)
      rw [List.foldl_cons, List.forall_mem_cons]
      exact ⟨first.trans (min_le_left _ _), first.trans (min_le_right _ _), rest⟩

theorem le_foldl_min (low : m ≤ top) (all : ∀ w ∈ ws, m ≤ w) : m ≤ ws.foldl min top := by
  induction ws generalizing top with
  | nil => exact low
  | cons w ws ih =>
      obtain ⟨first, rest⟩ := List.forall_mem_cons.mp all
      exact ih (le_min low first) rest

theorem foldl_min_mem : ws.foldl min top = top ∨ ws.foldl min top ∈ ws := by
  induction ws generalizing top with
  | nil => exact .inl rfl
  | cons w ws ih =>
      rw [List.foldl_cons, List.mem_cons]
      rcases @ih (min top w) with here | here
      · rw [here]
        rcases min_choice top w with least | least
        · exact .inl least
        · exact .inr (.inl least)
      · exact .inr (.inr here)

end Least

/-- The least of the cells of a key, in all rows, is its weight or more; it is the
    weight if and only if no other item weighs anything in one of these cells. -/
theorem estimate (rows : List (K → C)) (some : rows ≠ []) (top : Int) (nonneg : ∀ i ∈ items, 0 ≤ i.2)
    (fits : (items.map Prod.snd).sum ≤ top) (k : K) :
    weight items k ≤ (rows.map fun h => load h items (h k)).foldl min top ∧
      ((rows.map fun h => load h items (h k)).foldl min top = weight items k ↔
        ∃ h ∈ rows, ∀ i ∈ items, h i.1 = h k → i.1 ≠ k → i.2 = 0) := by
  have each : ∀ h ∈ rows, weight items k ≤ load h items (h k) := fun h _ => by
    have more := excess_nonneg (h := h) (k := k) nonneg
    rw [load_eq]
    omega
  have below : ∀ h ∈ rows, load h items (h k) ≤ top := fun h _ => (load_le_sum nonneg).trans fits
  obtain ⟨least, all⟩ := @foldl_min_le top (rows.map fun h => load h items (h k))
  obtain ⟨first, hfirst⟩ := List.exists_mem_of_ne_nil rows some
  have low : weight items k ≤ (rows.map fun h => load h items (h k)).foldl min top := by
    refine le_foldl_min ((each first hfirst).trans (below first hfirst)) fun w hw => ?_
    obtain ⟨h, hh, rfl⟩ := List.mem_map.mp hw
    exact each h hh
  refine ⟨low, fun exact => ?_, ?_⟩
  · -- the least value is that of some row
    have row : ∃ h ∈ rows, load h items (h k) = weight items k := by
      rcases @foldl_min_mem top (rows.map fun h => load h items (h k)) with here | here
      · refine ⟨first, hfirst, le_antisymm ?_ (each first hfirst)⟩
        rw [← exact, here]
        exact below first hfirst
      · obtain ⟨h, hh, same⟩ := List.mem_map.mp here
        exact ⟨h, hh, same.trans exact⟩
    obtain ⟨h, hh, same⟩ := row
    rw [load_eq] at same
    exact ⟨h, hh, (excess_eq_zero nonneg).mp (by omega)⟩
  · rintro ⟨h, hh, alone⟩
    have same := load_eq h items k
    rw [(excess_eq_zero nonneg).mpr alone, add_zero] at same
    exact le_antisymm ((all _ (List.mem_map.mpr ⟨h, hh, rfl⟩)).trans same.le) low

end CountMin
