import CuckooGraph.Basic
import CuckooGraph.CountMin
import Mathlib.Logic.Function.Basic

/-! # The count-min sketch `CMSketch`

A key is counted in one counter of each of three rows, and the least of its three
counters is returned. The counters are `count_type`s and wrap around.
-/

namespace CuckooGraph

abbrev CMlen : Nat := 300000
abbrev cmseeds : List Int := [0, 221, 19]

/-- `cm`, whose rows are numbered by their seeds. -/
abbrev CMSketch := Int → Nat → Nat

namespace CMSketch

open CountMin

variable (E : Env)

def new : CMSketch := fun _ _ => 0

def pos (seed : Int) (key : Key) : Nat := E.mmhash key seed % CMlen

def query (cm : CMSketch) (key : Key) : Nat :=
  cmseeds.foldl (fun res seed => min res (cm seed (pos E seed key))) 0xffffffff

def insertRow (key : Key) (cm : CMSketch) (seed : Int) : CMSketch :=
  Function.update cm seed (Function.update (cm seed) (pos E seed key) ((cm seed (pos E seed key) + 1) % 2 ^ 32))

def insert (cm : CMSketch) (key : Key) : CMSketch := cmseeds.foldl (insertRow E key) cm

def insertAll (keys : List Key) : CMSketch := keys.foldl (insert E) new

/-- Every key counts 1. -/
abbrev unit (key : Key) : Key × Int := (key, 1)

variable {E}

theorem insertRow_apply (cm : CMSketch) (key : Key) (seed row : Int) (c : Nat) :
    insertRow E key cm seed row c =
      if row = seed ∧ pos E seed key = c then (cm row c + 1) % 2 ^ 32 else cm row c := by
  unfold insertRow
  by_cases here : row = seed
  · subst here
    by_cases there : pos E row key = c
    · subst there
      simp
    · simp [there, Ne.symm there]
  · simp [here]

theorem insert_apply (cm : CMSketch) (key : Key) {row : Int} (hrow : row ∈ cmseeds) (c : Nat) :
    insert E cm key row c = if pos E row key = c then (cm row c + 1) % 2 ^ 32 else cm row c := by
  -- the seeds differ, so one pass acts on the row
  simp only [cmseeds, List.mem_cons, List.not_mem_nil, or_false] at hrow
  simp only [insert, List.foldl_cons, List.foldl_nil, insertRow_apply]
  rcases hrow with rfl | rfl | rfl <;> simp

/-- A counter holds the number of keys which were counted in it. -/
theorem insertAll_apply (keys : List Key) (fits : keys.length < 2 ^ 32) {row : Int} (hrow : row ∈ cmseeds) (c : Nat) :
    (insertAll E keys row c : Int) = load (pos E row) (keys.map unit) c := by
  induction keys using List.reverseRecOn with
  | nil => rfl
  | append_singleton keys key ih =>
      rw [List.length_append, List.length_singleton] at fits
      have bound : load (pos E row) (keys.map unit) c ≤ keys.length := by
        refine (load_le_sum fun i hi => ?_).trans_eq ?_
        · obtain ⟨k, -, rfl⟩ := List.mem_map.mp hi
          exact Int.one_nonneg
        · simp [List.map_map, Function.comp_def]
      have held := ih (by omega)
      rw [List.map_append, List.map_singleton, load_concat, ← held, insertAll, List.foldl_append, List.foldl_cons,
        List.foldl_nil, insert_apply _ key hrow, ← insertAll]
      by_cases here : pos E row key = c
      · simp only [here, if_true]
        rw [Nat.mod_eq_of_lt (by omega)]
        push_cast
        rfl
      · simp only [here, if_false, add_zero]

theorem query_eq (cm : CMSketch) (key : Key) :
    (query E cm key : Int) = (cmseeds.map fun seed => (cm seed (pos E seed key) : Int)).foldl min 0xffffffff := by
  simp [query]

theorem weight_unit (keys : List Key) (key : Key) : weight (keys.map unit) key = keys.count key := by
  rw [List.count_eq_countP, List.countP_eq_length_filter, weight, List.filter_map, List.map_map]
  simp [Function.comp_def, beq_eq_decide]

/-- As long as no counter wraps around, a key is never counted too low; it is
    counted right if and only if there is a row in which it shares its counter with
    no other key. -/
theorem query_counts (E : Env) (keys : List Key) (fits : keys.length < 2 ^ 32) (key : Key) :
    keys.count key ≤ query E (insertAll E keys) key ∧
      (query E (insertAll E keys) key = keys.count key ↔
        ∃ seed ∈ cmseeds, ∀ k ∈ keys, pos E seed k = pos E seed key → k = key) := by
  have nonneg : ∀ i ∈ keys.map unit, 0 ≤ i.2 := fun i hi => by
    obtain ⟨k, -, rfl⟩ := List.mem_map.mp hi
    exact Int.one_nonneg
  have total : ((keys.map unit).map Prod.snd).sum ≤ 0xffffffff := by
    simp [List.map_map, Function.comp_def]
    omega
  obtain ⟨low, exact⟩ := estimate (cmseeds.map (pos E)) (List.cons_ne_nil _ _) 0xffffffff nonneg total key
  have rows : ((cmseeds.map (pos E)).map fun h => load h (keys.map unit) (h key)).foldl min 0xffffffff =
      (query E (insertAll E keys) key : Int) := by
    rw [query_eq, List.map_map]
    congr 1
    exact List.map_congr_left fun seed hs => (insertAll_apply keys fits hs _).symm
  rw [rows, weight_unit] at low exact
  refine ⟨by exact_mod_cast low, ?_⟩
  rw [Nat.cast_inj] at exact
  rw [exact]
  simp only [List.mem_map, exists_exists_and_eq_and, forall_exists_index, and_imp, forall_apply_eq_imp_iff₂, unit]
  refine exists_congr fun seed => and_congr_right fun _ => forall₂_congr fun k _ => ?_
  constructor
  · intro zero same
    by_contra other
    exact absurd (zero same other) (by decide)
  · intro alone same other
    exact absurd (alone same) other

theorem query_counts_repeated :
    ([5, 7, 5] : List Key).count 5 ≤ query colliding (insertAll colliding [5, 7, 5]) 5 ∧
      (query colliding (insertAll colliding [5, 7, 5]) 5 = ([5, 7, 5] : List Key).count 5 ↔
        ∃ seed ∈ cmseeds, ∀ k ∈ [5, 7, 5], pos colliding seed k = pos colliding seed 5 → k = (5 : Key)) :=
  query_counts colliding [5, 7, 5] (by decide) 5

end CMSketch

end CuckooGraph
