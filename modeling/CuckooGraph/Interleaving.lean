import Mathlib.Data.List.Basic
import Mathlib.Logic.Function.Basic
import Mathlib.Tactic.Common

/-! # Interleavings

Several parties act in turn on one world. If each of them finds there what it
would have alone, and leaves there what the others would have, then all get the
answers which they would get alone.
-/

/-- `l` is a merge of `a` and `b` which keeps the order of each. -/
inductive Interleaved {β : Type} : List β → List β → List β → Prop
  | nil : Interleaved [] [] []
  | left {a b l : List β} (x : β) (rest : Interleaved a b l) : Interleaved (x :: a) b (x :: l)
  | right {a b l : List β} (x : β) (rest : Interleaved a b l) : Interleaved a (x :: b) (x :: l)

namespace Interleaved

variable {β : Type} {a b l : List β} {p : β → Bool}

theorem swap (h : Interleaved a b l) : Interleaved b a l := by
  induction h with
  | nil => exact .nil
  | left x _ ih => exact .right x ih
  | right x _ ih => exact .left x ih

theorem refl_left (a : List β) : Interleaved a [] a := by
  induction a with
  | nil => exact .nil
  | cons x a ih => exact .left x ih

theorem eq_left (h : Interleaved a [] l) : l = a := by
  induction a generalizing l with
  | nil =>
      cases h
      rfl
  | cons x a ih =>
      cases h with
      | left _ rest => exact congrArg (x :: ·) (ih rest)

theorem length (h : Interleaved a b l) : l.length = a.length + b.length := by
  induction h with
  | nil => rfl
  | left _ _ ih =>
      simp only [List.length_cons, ih]
      omega
  | right _ _ ih =>
      simp only [List.length_cons, ih]
      omega

theorem any (h : Interleaved a b l) : l.any p = (a.any p || b.any p) := by
  induction h with
  | nil => rfl
  | left x _ ih => simp [ih, Bool.or_assoc]
  | right x _ ih => simp [ih, Bool.or_left_comm]

/-- What is pushed at the end belongs to the first list. -/
theorem append (h : Interleaved a b l) (xs : List β) : Interleaved (a ++ xs) b (l ++ xs) := by
  induction h with
  | nil => exact refl_left xs
  | left x _ ih => exact .left x ih
  | right x _ ih => exact .right x ih

theorem filter (h : Interleaved a b l) (p : β → Bool) :
    Interleaved (a.filter p) (b.filter p) (l.filter p) := by
  induction h with
  | nil => exact .nil
  | left x _ ih =>
      simp only [List.filter_cons]
      split
      · exact .left x ih
      · exact ih
  | right x _ ih =>
      simp only [List.filter_cons]
      split
      · exact .right x ih
      · exact ih

section Clear

variable (h : Interleaved a b l) (clear : ∀ x ∈ b, p x = false)

include h clear

theorem any_clear : l.any p = a.any p := by
  have none : b.any p = false := by simpa using clear
  rw [h.any, none, Bool.or_false]

theorem filter_clear : l.filter p = a.filter p := by
  have none : b.filter p = [] := by simpa using clear
  have rest := h.filter p
  rw [none] at rest
  exact rest.eq_left

/-- Elements of the first list are dropped. -/
theorem drop_clear : Interleaved (a.filter fun x => !p x) b (l.filter fun x => !p x) := by
  have all : (b.filter fun x => !p x) = b := List.filter_eq_self.mpr fun x hx => by simp [clear x hx]
  have rest := h.filter fun x => !p x
  rwa [all] at rest

end Clear

end Interleaved

namespace Calls

variable {ι σ ω α β : Type} [DecidableEq ι]

/-- Calls one after the other, each with its answer, `none` if one does not return. -/
def run (step : α → σ → Option (σ × β)) : List α → σ → Option (σ × List β)
  | [], s => some (s, [])
  | a :: as, s =>
      match step a s with
      | none => none
      | some (s, b) => (run step as s).map fun r => (r.1, b :: r.2)

/-- The part of one party. -/
def of (i : ι) (calls : List (ι × α)) : List α :=
  calls.filterMap fun c => if c.1 = i then some c.2 else none

@[simp] theorem of_cons_self (i : ι) (a : α) (calls : List (ι × α)) :
    of i ((i, a) :: calls) = a :: of i calls := by simp [of]

theorem of_cons_ne {i j : ι} (other : j ≠ i) (a : α) (calls : List (ι × α)) :
    of i ((j, a) :: calls) = of i calls := by simp [of, other]

/-- A call of a party on the world, the answer being marked with its name. -/
def tagged (shared : ι → α → ω → Option (ω × β)) (c : ι × α) (w : ω) : Option (ω × (ι × β)) :=
  (shared c.1 c.2 w).map fun r => (r.1, (c.1, r.2))

/-- Each call meets the guard in the states which the parties have reached alone. -/
def Each (own : ι → α → σ → Option (σ × β)) (guard : (ι → σ) → ι → α → Prop) :
    (ι → σ) → List (ι × α) → Prop
  | _, [] => True
  | s, (i, a) :: calls =>
      guard s i a ∧ ∀ r b, own i a (s i) = some (r, b) → Each own guard (Function.update s i r) calls

theorem Each.mono {own : ι → α → σ → Option (σ × β)} {guard guard' : (ι → σ) → ι → α → Prop}
    (weaker : ∀ s i a, guard s i a → guard' s i a) {calls : List (ι × α)} {s : ι → σ} (each : Each own guard s calls) :
    Each own guard' s calls := by
  induction calls generalizing s with
  | nil => trivial
  | cons c calls ih => exact ⟨weaker s c.1 c.2 each.1, fun r b done => ih (each.2 r b done)⟩

instance decidableEach (own : ι → α → σ → Option (σ × β)) (guard : (ι → σ) → ι → α → Prop)
    [∀ s i a, Decidable (guard s i a)] : ∀ (s : ι → σ) (calls : List (ι × α)), Decidable (Each own guard s calls)
  | _, [] => isTrue trivial
  | s, (i, a) :: calls =>
      have := fun r : σ × β => decidableEach own guard (Function.update s i r.1) calls
      decidable_of_iff (guard s i a ∧ ∀ r ∈ own i a (s i), Each own guard (Function.update s i r.1) calls)
        ⟨fun ⟨here, later⟩ => ⟨here, fun r b done => later (r, b) done⟩,
          fun ⟨here, later⟩ => ⟨here, fun r done => later r.1 r.2 done⟩⟩

section Isolation

variable {own : ι → α → σ → Option (σ × β)} {shared : ι → α → ω → Option (ω × β)}
  {guard : (ι → σ) → ι → α → Prop} {R : (ι → σ) → ω → Prop}
  (step : ∀ s w i a, R s w → guard s i a →
    Option.Rel (fun r r' => r'.2 = r.2 ∧ R (Function.update s i r.1) r'.1) (own i a (s i))
      (shared i a w))

include step

/-- Whoever gets answers together gets the same ones alone. -/
theorem run_alone {calls : List (ι × α)} {s : ι → σ} {w w' : ω} {out : List (ι × β)} (related : R s w)
    (each : Each own guard s calls) (done : run (tagged shared) calls w = some (w', out)) (i : ι) :
    ∃ r, run (own i) (of i calls) (s i) = some (r, of i out) := by
  induction calls generalizing s w out with
  | nil =>
      cases done
      exact ⟨s i, rfl⟩
  | cons c calls ih =>
      obtain ⟨j, a⟩ := c
      obtain ⟨here, later⟩ := each
      have met := step s w j a related here
      simp only [run, tagged] at done
      generalize alone : own j a (s j) = r at met
      generalize together : shared j a w = r' at met done
      cases met with
      | none => cases done
      | @some r r' met =>
          obtain ⟨same, related⟩ := met
          obtain ⟨⟨w', bs⟩, rest, ending⟩ := Option.map_eq_some_iff.mp done
          cases ending
          obtain ⟨last, mine⟩ := ih related (later r.1 r.2 alone) rest
          by_cases self : j = i
          · subst self
            rw [Function.update_self] at mine
            refine ⟨last, ?_⟩
            rw [of_cons_self, of_cons_self, same]
            simp [run, alone, mine]
          · rw [Function.update_of_ne (Ne.symm self)] at mine
            refine ⟨last, ?_⟩
            rw [of_cons_ne self, of_cons_ne self]
            exact mine

/-- Calls which return alone return together. -/
theorem run_together {calls : List (ι × α)} {s : ι → σ} {w : ω} (related : R s w)
    (each : Each own guard s calls) (ends : ∀ i, (run (own i) (of i calls) (s i)).isSome) :
    (run (tagged shared) calls w).isSome := by
  induction calls generalizing s w with
  | nil => rfl
  | cons c calls ih =>
      obtain ⟨j, a⟩ := c
      obtain ⟨here, later⟩ := each
      have met := step s w j a related here
      have first := ends j
      rw [of_cons_self] at first
      simp only [run, tagged] at first ⊢
      generalize alone : own j a (s j) = r at met first
      generalize together : shared j a w = r' at met
      cases met with
      | none => cases first
      | @some r r' met =>
          obtain ⟨-, related⟩ := met
          have rest := ih related (later r.1 r.2 alone) fun i => by
            by_cases self : j = i
            · subst self
              rw [Function.update_self]
              simpa using first
            · rw [Function.update_of_ne (Ne.symm self), ← of_cons_ne self a]
              exact ends i
          simpa using rest

end Isolation

end Calls
