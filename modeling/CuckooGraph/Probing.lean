import Mathlib.Logic.Function.Basic
import Mathlib.Data.List.Basic
import Mathlib.Algebra.BigOperators.Group.List.Basic
import Mathlib.Tactic

/-! # Tables with probe sequences, from which nothing is removed

A key has a list of probes, each a cell and the label the key has there. It is
settled at the first probe whose cell is empty or holds that label, and what is
added for it is added up there; if there is no such probe, it spills out of the
table. As no cell is ever emptied, a key is found where it was settled.
-/

namespace Probing

variable {K S C W : Type} [DecidableEq C]

/-- The cells with their labels and values, and the values of the keys which have spilled. -/
structure Store (K S C W : Type) where
  cells : S → Option (C × W)
  spilled : K → Option W

/-- The cell is empty or has the label of the probe. -/
def accepts (cells : S → Option (C × W)) (q : S × C) : Bool := (cells q.1).all fun e => e.1 = q.2

/-- Where the probes end. -/
def settle (cells : S → Option (C × W)) (probes : List (S × C)) : Option (S × C) := probes.find? (accepts cells)

namespace Store

variable (probes : K → List (S × C)) (t : Store K S C W)

def empty : Store K S C W := ⟨fun _ => none, fun _ => none⟩

/-- A label in its cell belongs to one key only. -/
def Apart : Prop := ∀ q k k', q ∈ probes k → q ∈ probes k' → k = k'

/-- Each label stands where the probes of its key end, and a key which has spilled has no place in the table. -/
structure Settled : Prop where
  owner : ∀ s c w, t.cells s = some (c, w) → ∃ k, settle t.cells (probes k) = some (s, c)
  full : ∀ k w, t.spilled k = some w → settle t.cells (probes k) = none

/-- What is stored for a key. -/
def value (k : K) : Option W :=
  match settle t.cells (probes k) with
  | some q => (t.cells q.1).map Prod.snd
  | none => t.spilled k

/-- What is stored in the table for a key. -/
def inside (k : K) : Option W := (settle t.cells (probes k)).bind fun q => (t.cells q.1).map Prod.snd

variable [DecidableEq K] [DecidableEq S] [AddMonoid W]

/-- Add `w` to what is stored for a key. -/
def add (k : K) (w : W) : Store K S C W :=
  match settle t.cells (probes k) with
  | some q => { t with cells := Function.update t.cells q.1 (some (q.2, ((t.cells q.1).map Prod.snd).getD 0 + w)) }
  | none => { t with spilled := Function.update t.spilled k (some ((t.spilled k).getD 0 + w)) }

/-- Add up a list of items. -/
def addAll (items : List (K × W)) : Store K S C W := items.foldl (fun t i => t.add probes i.1 i.2) empty

end Store

theorem accepts_iff {cells : S → Option (C × W)} {q : S × C} :
    accepts cells q = true ↔ ∀ c w, cells q.1 = some (c, w) → c = q.2 := by
  cases h : cells q.1 with
  | none => simp [accepts, h]
  | some e => simp [accepts, h, Prod.ext_iff, eq_comm]

theorem settle_mem {cells : S → Option (C × W)} {qs : List (S × C)} {q : S × C} (here : settle cells qs = some q) :
    q ∈ qs := List.mem_of_find?_eq_some here

theorem settle_accepts {cells : S → Option (C × W)} {qs : List (S × C)} {q : S × C}
    (here : settle cells qs = some q) : accepts cells q = true := List.find?_some here

section Fill

variable {cells cells' : S → Option (C × W)} {qs : List (S × C)} {q : S × C}

/-- A cell which is taken, by the label it has. -/
def Kept (cells cells' : S → Option (C × W)) : Prop := ∀ s c w, cells s = some (c, w) → ∃ w', cells' s = some (c, w')

theorem Kept.accepts (kept : Kept cells cells') (late : Probing.accepts cells' q = true) :
    Probing.accepts cells q = true := by
  rw [accepts_iff] at late ⊢
  intro c w here
  obtain ⟨w', there⟩ := kept _ c w here
  exact late c w' there

/-- A probe on the way to a place stays taken, whatever is filled in. -/
theorem Kept.settle (kept : Kept cells cells') (here : settle cells qs = some q) (still : Probing.accepts cells' q = true) :
    settle cells' qs = some q := by
  induction qs with
  | nil => cases here
  | cons q' qs ih =>
      unfold Probing.settle at here ⊢
      rw [List.find?_cons] at here ⊢
      cases first : Probing.accepts cells q' with
      | true =>
          simp only [first, Option.some.injEq] at here
          simp [here, still]
      | false =>
          simp only [first] at here
          have closed : Probing.accepts cells' q' = false := by
            by_contra opened
            simp [kept.accepts (Bool.eq_true_of_not_eq_false opened)] at first
          simp only [closed]
          exact ih here

theorem Kept.settle_none (kept : Kept cells cells') (full : Probing.settle cells qs = none) :
    Probing.settle cells' qs = none := by
  unfold Probing.settle at full ⊢
  rw [List.find?_eq_none] at full ⊢
  exact fun q hq late => full q hq (kept.accepts late)

end Fill

namespace Store

variable {probes : K → List (S × C)} {t : Store K S C W} {k k' : K} {w : W} {s : S} {c : C}

theorem settled_empty : (empty : Store K S C W).Settled probes where
  owner := by intro s c w here; cases here
  full := by intro k w here; cases here

theorem value_empty : (empty : Store K S C W).value probes k = none := by
  unfold value
  cases settle (empty : Store K S C W).cells (probes k) <;> rfl

/-- The place of a key that is in the table. -/
theorem Settled.settle_eq (ok : t.Settled probes) (apart : Apart probes) (hk : (s, c) ∈ probes k)
    (here : t.cells s = some (c, w)) : settle t.cells (probes k) = some (s, c) := by
  obtain ⟨k', there⟩ := ok.owner s c w here
  rwa [apart _ _ _ hk (settle_mem there)]

theorem Settled.inside_eq_some (ok : t.Settled probes) (apart : Apart probes) :
    t.inside probes k = some w ↔ ∃ q ∈ probes k, t.cells q.1 = some (q.2, w) := by
  constructor
  · intro found
    obtain ⟨q, place, found⟩ := Option.bind_eq_some_iff.mp found
    obtain ⟨e, cell, rfl⟩ := Option.map_eq_some_iff.mp found
    have label := accepts_iff.mp (settle_accepts place) e.1 e.2 cell
    exact ⟨q, settle_mem place, by rw [cell, ← label]⟩
  · rintro ⟨q, hq, here⟩
    rw [inside, ok.settle_eq apart hq here, Option.bind_some, here, Option.map_some]

/-- A key is stored in the table or has spilled. -/
theorem Settled.value_cases (ok : t.Settled probes) (k : K) :
    t.spilled k = none ∧ t.value probes k = t.inside probes k ∨
      t.inside probes k = none ∧ t.value probes k = t.spilled k := by
  unfold value inside
  cases place : settle t.cells (probes k) with
  | none => exact .inr ⟨rfl, rfl⟩
  | some q =>
      refine .inl ⟨Option.eq_none_iff_forall_ne_some.mpr fun w spilled => ?_, rfl⟩
      rw [ok.full k w spilled] at place
      cases place

/-- A value is found in the table or among those which have spilled. -/
theorem Settled.value_eq_some (ok : t.Settled probes) (apart : Apart probes) :
    t.value probes k = some w ↔ (∃ q ∈ probes k, t.cells q.1 = some (q.2, w)) ∨ t.spilled k = some w := by
  rw [← ok.inside_eq_some apart]
  rcases ok.value_cases k with ⟨none, value⟩ | ⟨none, value⟩ <;> simp [none, value]

/-- Filling a cell, or changing the value in it, keeps all places. -/
theorem kept_update [DecidableEq S] {q : S × C} (here : settle t.cells (probes k) = some q) (v : W) :
    Kept t.cells (Function.update t.cells q.1 (some (q.2, v))) := by
  intro s c w there
  by_cases same : s = q.1
  · subst same
    have label := accepts_iff.mp (settle_accepts here) c w there
    exact ⟨v, by rw [Function.update_self, label]⟩
  · exact ⟨w, by rwa [Function.update_of_ne same]⟩

variable [DecidableEq K] [DecidableEq S] [AddMonoid W]

theorem Settled.add (ok : t.Settled probes) (k : K) (w : W) : (t.add probes k w).Settled probes := by
  unfold Store.add
  cases place : settle t.cells (probes k) with
  | none =>
      refine ⟨ok.owner, fun k' w' here => ?_⟩
      by_cases same : k' = k
      · exact same ▸ place
      · exact ok.full k' w' (by simpa [Function.update_of_ne same] using here)
  | some q =>
      have kept := kept_update place (((t.cells q.1).map Prod.snd).getD 0 + w)
      refine ⟨fun s c w' here => ?_, fun k' w' here => kept.settle_none (ok.full k' w' here)⟩
      by_cases same : s = q.1
      · subst same
        simp only [Function.update_self, Option.some.injEq, Prod.mk.injEq] at here
        obtain ⟨rfl, -⟩ := here
        exact ⟨k, kept.settle place (accepts_iff.mpr (by simp))⟩
      · simp only [Function.update_of_ne same] at here
        obtain ⟨k', there⟩ := ok.owner s c w' here
        exact ⟨k', kept.settle there (accepts_iff.mpr (by simp [Function.update_of_ne same, here]))⟩

/-- Adding to a key changes its value and no other. -/
theorem Settled.value_add (ok : t.Settled probes) (apart : Apart probes) (k : K) (w : W) (k' : K) :
    (t.add probes k w).value probes k' =
      if k' = k then some ((t.value probes k).getD 0 + w) else t.value probes k' := by
  have ok' := ok.add k w
  by_cases same : k' = k
  · rw [if_pos same, same, ok'.value_eq_some apart]
    unfold Store.add value
    cases place : settle t.cells (probes k) with
    | none => exact .inr (by simp)
    | some q => exact .inl ⟨q, settle_mem place, by simp⟩
  · rw [if_neg same]
    refine Option.ext fun v => ?_
    rw [ok'.value_eq_some apart, ok.value_eq_some apart]
    unfold Store.add
    cases place : settle t.cells (probes k) with
    | none => simp [Function.update_of_ne same]
    | some q =>
        -- the cell which is written has a label of `k`, before and after
        have other : ∀ q' ∈ probes k', q' ≠ q := by
          rintro q' hq' rfl
          exact same (apart _ _ _ hq' (settle_mem place))
        refine or_congr_left (exists_congr fun q' => and_congr_right fun hq' => ?_)
        by_cases cell : q'.1 = q.1
        · have away : q.2 ≠ q'.2 := fun label => other q' hq' (Prod.ext cell label.symm)
          have before : ∀ x, t.cells q.1 ≠ some (q'.2, x) := by
            intro x here
            exact away (accepts_iff.mp (settle_accepts place) _ _ here).symm
          simp [cell, away, before]
        · simp only [Function.update_of_ne cell]

theorem Settled.addAll (items : List (K × W)) : (addAll probes items : Store K S C W).Settled probes := by
  induction items using List.reverseRecOn with
  | nil => exact settled_empty
  | append_singleton items i ih =>
      rw [Store.addAll, List.foldl_append]
      exact ih.add i.1 i.2

/-- What is stored after a list of items: the sum of those of the key, if there are any. -/
theorem value_addAll (apart : Apart probes) (items : List (K × W)) (k : K) :
    (addAll probes items : Store K S C W).value probes k =
      if k ∈ items.map Prod.fst then some ((items.filter fun i => i.1 = k).map Prod.snd).sum else none := by
  induction items using List.reverseRecOn with
  | nil =>
      rw [List.map_nil, if_neg List.not_mem_nil]
      exact value_empty
  | append_singleton items i ih =>
      have ok : (addAll probes items : Store K S C W).Settled probes := Settled.addAll items
      rw [Store.addAll, List.foldl_append, List.foldl_cons, List.foldl_nil]
      refine (ok.value_add apart i.1 i.2 k).trans ?_
      simp only [List.map_append, List.mem_append, List.filter_append, List.sum_append, List.map_cons, List.map_nil,
        List.mem_singleton]
      by_cases same : k = i.1
      · subst same
        rw [if_pos rfl, ih, if_pos (Or.inr rfl)]
        by_cases old : i.1 ∈ items.map Prod.fst
        · simp [old]
        · have first : items.filter (fun j => j.1 = i.1) = [] := by
            rw [List.filter_eq_nil_iff]
            intro j hj
            simpa using fun same => old (List.mem_map.mpr ⟨j, hj, same⟩)
          simp [old, first]
      · have rest : [i].filter (fun j => j.1 = k) = [] := by simp [Ne.symm same]
        rw [if_neg same, ih]
        simp only [or_iff_left same, rest, List.map_nil, List.sum_nil, add_zero]

end Store

end Probing
