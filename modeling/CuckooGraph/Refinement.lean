import CuckooGraph.Interleaving

/-! # Refinement of a component which answers calls

A specification says what a call does to an abstract state, and which answers are
right. A component refines it if each of its calls, made where it is allowed, gives
a right answer and leaves a state which stands for the abstract one.
-/

namespace Calls

variable {σ τ α β : Type}

/-- What a component is for. -/
structure Spec (τ α β : Type) where
  effect : α → τ → τ
  answers : τ → α → β → Prop

/-- The answers to some calls are right; the abstract state is the last one in the end. -/
inductive Spec.Right (spec : Spec τ α β) : τ → List α → List β → τ → Prop
  | nil (t : τ) : spec.Right t [] [] t
  | cons {t t' : τ} {a : α} {as : List α} {b : β} {bs : List β} (first : spec.answers t a b)
      (rest : spec.Right (spec.effect a t) as bs t') : spec.Right t (a :: as) (b :: bs) t'

/-- Each call is made where it is allowed. -/
def Allowed (step : α → σ → Option (σ × β)) (guard : α → σ → Prop) : List α → σ → Prop
  | [], _ => True
  | a :: as, s => guard a s ∧ ∀ s' b, step a s = some (s', b) → Allowed step guard as s'

variable {step : α → σ → Option (σ × β)} {guard : α → σ → Prop} {spec : Spec τ α β} {R : σ → τ → Prop}

instance decidableAllowed [∀ a s, Decidable (guard a s)] : ∀ (as : List α) (s : σ), Decidable (Allowed step guard as s)
  | [], _ => isTrue trivial
  | a :: as, s =>
      have := fun s' => decidableAllowed as s'
      decidable_of_iff (guard a s ∧ ∀ r ∈ step a s, Allowed step guard as r.1)
        (and_congr_right fun _ => ⟨fun all s' b done => all (s', b) done, fun all r done => all r.1 r.2 done⟩)

/-- What holds of each call holds of whole runs. -/
theorem run_refines
    (simulates : ∀ s t a s' b, R s t → guard a s → step a s = some (s', b) → R s' (spec.effect a t) ∧ spec.answers t a b)
    {as : List α} {s s' : σ} {t : τ} {bs : List β} (related : R s t) (allowed : Allowed step guard as s)
    (done : run step as s = some (s', bs)) : ∃ t', R s' t' ∧ spec.Right t as bs t' := by
  induction as generalizing s t bs with
  | nil =>
      cases done
      exact ⟨t, related, .nil t⟩
  | cons a as ih =>
      obtain ⟨here, later⟩ := allowed
      cases first : step a s with
      | none => simp [run, first] at done
      | some r =>
          simp only [run, first, Option.map_eq_some_iff, Prod.mk.injEq] at done
          obtain ⟨⟨s'', bs'⟩, rest, rfl, rfl⟩ := done
          obtain ⟨next, answer⟩ := simulates s t a r.1 r.2 related here first
          obtain ⟨t', last, right⟩ := ih next (later r.1 r.2 first) rest
          exact ⟨t', last, .cons answer right⟩

/-- If each call which is allowed comes to an end, so does each run. -/
theorem run_total (answered : ∀ s t a, R s t → guard a s →
      ∃ s' b, step a s = some (s', b) ∧ R s' (spec.effect a t) ∧ spec.answers t a b) {as : List α} {s : σ} {t : τ}
    (related : R s t) (allowed : Allowed step guard as s) :
    ∃ s' bs t', run step as s = some (s', bs) ∧ R s' t' ∧ spec.Right t as bs t' := by
  induction as generalizing s t with
  | nil => exact ⟨s, [], t, rfl, related, .nil t⟩
  | cons a as ih =>
      obtain ⟨here, later⟩ := allowed
      obtain ⟨s', b, first, next, answer⟩ := answered s t a related here
      obtain ⟨s'', bs, t', rest, last, right⟩ := ih next (later s' b first)
      refine ⟨s'', b :: bs, t', ?_, last, .cons answer right⟩
      simp only [run, first, rest, Option.map_some]

theorem Spec.Right.final {t t' : τ} {as : List α} {bs : List β} (right : spec.Right t as bs t') :
    t' = as.foldl (fun t a => spec.effect a t) t := by
  induction right with
  | nil t => rfl
  | cons _ _ ih => exact ih

end Calls
