import Mathlib.Data.Option.Basic
import Mathlib.Tactic.Common

/-! # Loops with fuel

`run` is `while (cond) body`. Its rules are those of a loop: an invariant and
the exit condition, and a variant for termination. `Each` restricts the passes
of one run, for loops whose body is not safe in every state, and `Finally` all but
finitely many of them. `Along` restricts the steps of a fold.
-/

namespace Loop

variable {σ : Type} (cond : σ → Bool) (body : σ → σ)

/-- The state after the loop, `none` if it takes more than `fuel` passes. -/
def run : Nat → σ → Option σ
  | 0, s => if cond s then none else some s
  | fuel + 1, s => if cond s then run fuel (body s) else some s

/-- The first `fuel` passes start from states with `ok`. -/
def Each (ok : σ → Prop) : Nat → σ → Prop
  | 0, _ => True
  | fuel + 1, s => cond s = true → ok s ∧ Each ok fuel (body s)

variable {cond body} {ok I : σ → Prop} {s s' : σ}

instance decidableEach [DecidablePred ok] : ∀ (fuel : Nat) (s : σ), Decidable (Each cond body ok fuel s)
  | 0, _ => isTrue trivial
  | fuel + 1, s =>
      have := decidableEach fuel (body s)
      inferInstanceAs (Decidable (cond s = true → ok s ∧ Each cond body ok fuel (body s)))

theorem each_of_all (all : ∀ s, ok s) (fuel : Nat) (s : σ) : Each cond body ok fuel s := by
  induction fuel generalizing s with
  | zero => trivial
  | succ fuel ih => exact fun _ => ⟨all s, ih (body s)⟩

theorem Each.mono {ok' : σ → Prop} (imp : ∀ s, ok s → ok' s) {fuel : Nat} (each : Each cond body ok fuel s) :
    Each cond body ok' fuel s := by
  induction fuel generalizing s with
  | zero => trivial
  | succ fuel ih =>
      intro more
      obtain ⟨here, later⟩ := each more
      exact ⟨imp s here, ih later⟩

theorem Each.both {ok' : σ → Prop} {fuel : Nat} (each : Each cond body ok fuel s) (each' : Each cond body ok' fuel s) :
    Each cond body (fun s => ok s ∧ ok' s) fuel s := by
  induction fuel generalizing s with
  | zero => trivial
  | succ fuel ih => exact fun more => ⟨⟨(each more).1, (each' more).1⟩, ih (each more).2 (each' more).2⟩

section Stop

variable (stop : cond s = false)

include stop

theorem each_of_stop (fuel : Nat) : Each cond body ok fuel s := by
  cases fuel with
  | zero => trivial
  | succ fuel =>
      intro more
      rw [stop] at more
      cases more

theorem run_of_stop (fuel : Nat) : run cond body fuel s = some s := by
  cases fuel <;> simp [run, stop]

end Stop

/-- The invariant rule. -/
theorem run_inv (keep : ∀ s, cond s = true → ok s → I s → I (body s)) {fuel : Nat}
    (each : Each cond body ok fuel s) (before : I s) (done : run cond body fuel s = some s') :
    I s' := by
  induction fuel generalizing s with
  | zero =>
      simp only [run] at done
      split at done
      · cases done
      · cases done
        exact before
  | succ fuel ih =>
      simp only [run] at done
      split at done
      · rename_i more
        obtain ⟨here, later⟩ := each more
        exact ih later (keep s more here before) done
      · cases done
        exact before

theorem run_exit {fuel : Nat} (done : run cond body fuel s = some s') : cond s' = false := by
  induction fuel generalizing s with
  | zero =>
      simp only [run] at done
      split at done
      · cases done
      · rename_i exit
        cases done
        simpa using exit
  | succ fuel ih =>
      simp only [run] at done
      split at done
      · exact ih done
      · rename_i exit
        cases done
        simpa using exit

theorem run_more {fuel more : Nat} (done : run cond body fuel s = some s') (le : fuel ≤ more) :
    run cond body more s = some s' := by
  induction fuel generalizing s more with
  | zero =>
      cases long : cond s with
      | true => simp [run, long] at done
      | false => cases more <;> simpa [run, long] using done
  | succ fuel ih =>
      cases more with
      | zero => omega
      | succ more =>
          cases long : cond s with
          | true =>
              simp only [run, long, if_true] at done ⊢
              exact ih done (by omega)
          | false => simpa [run, long] using done

/-- The variant rule: a loop whose passes lessen `size` ends. -/
theorem run_ends (size : σ → Nat) (keep : ∀ s, cond s = true → ok s → I s → I (body s))
    (less : ∀ s, cond s = true → ok s → I s → size (body s) < size s) {fuel : Nat}
    (enough : size s ≤ fuel) (each : Each cond body ok (fuel + 1) s) (before : I s) :
    ∃ s', run cond body fuel s = some s' := by
  induction fuel generalizing s with
  | zero =>
      cases more : cond s with
      | false => exact ⟨s, by simp [run, more]⟩
      | true =>
          have := less s more (each more).1 before
          omega
  | succ fuel ih =>
      cases more : cond s with
      | false => exact ⟨s, by simp [run, more]⟩
      | true =>
          obtain ⟨here, later⟩ := each more
          have smaller := less s more here before
          obtain ⟨s', done⟩ := ih (by omega) later (keep s more here before)
          exact ⟨s', by simpa [run, more] using done⟩

section Finally

variable (cond body)

/-- The state after `n` passes, or at the end if there are fewer. -/
def after : Nat → σ → σ
  | 0, s => s
  | n + 1, s => if cond s then after n (body s) else s

/-- All but finitely many passes start from states with `ok`. -/
def Finally (ok : σ → Prop) (s : σ) : Prop := ∃ n, ∀ fuel, Each cond body ok fuel (after cond body n s)

variable {cond body}

theorem after_of_stop (stop : cond s = false) (n : Nat) : after cond body n s = s := by
  cases n <;> simp [after, stop]

theorem run_after {n fuel : Nat} (done : run cond body fuel (after cond body n s) = some s') :
    run cond body (n + fuel) s = some s' := by
  induction n generalizing s with
  | zero => simpa [after] using done
  | succ n ih =>
      rw [Nat.succ_add, run]
      cases more : cond s with
      | true =>
          rw [after, more, if_pos rfl] at done
          exact ih done
      | false =>
          rw [after_of_stop more, run_of_stop more] at done
          exact done

theorem after_inv {base : σ → Prop} (keep : ∀ s, cond s = true → base s → I s → I (body s))
    (each : ∀ fuel, Each cond body base fuel s) (before : I s) (n : Nat) :
    I (after cond body n s) ∧ ∀ fuel, Each cond body base fuel (after cond body n s) := by
  induction n generalizing s with
  | zero => exact ⟨before, each⟩
  | succ n ih =>
      rw [after]
      cases more : cond s with
      | true =>
          rw [if_pos rfl]
          exact ih (fun fuel => (each (fuel + 1) more).2) (keep s more (each 1 more).1 before)
      | false =>
          rw [if_neg Bool.false_ne_true]
          exact ⟨before, each⟩

/-- A loop which has ended has no passes left. -/
theorem finally_of_run {fuel : Nat} (done : run cond body fuel s = some s') : Finally cond body ok s := by
  refine ⟨fuel, fun more => ?_⟩
  induction fuel generalizing s with
  | zero =>
      rw [run] at done
      split at done
      · cases done
      · rename_i exit
        exact each_of_stop (by simpa [after] using exit) more
  | succ fuel ih =>
      rw [run] at done
      rw [after]
      split at done
      · rename_i here
        rw [if_pos here]
        exact ih done
      · rename_i exit
        rw [if_neg exit]
        exact each_of_stop (by simpa using exit) more

/-- The variant rule where finitely many passes may not lessen `size`. -/
theorem run_ends_finally {base : σ → Prop} (size : σ → Nat) (keep : ∀ s, cond s = true → base s → I s → I (body s))
    (less : ∀ s, cond s = true → base s → ok s → I s → size (body s) < size s)
    (each : ∀ fuel, Each cond body base fuel s) (last : Finally cond body ok s) (before : I s) :
    ∃ fuel s', run cond body fuel s = some s' ∧ I s' := by
  obtain ⟨n, settled⟩ := last
  obtain ⟨mid, rest⟩ := after_inv keep each before n
  have both : ∀ fuel, Each cond body (fun s => base s ∧ ok s) fuel (after cond body n s) :=
    fun fuel => (rest fuel).both (settled fuel)
  obtain ⟨s', done⟩ := run_ends size (fun s more (good : base s ∧ ok s) => keep s more good.1)
    (fun s more good => less s more good.1 good.2) (Nat.le_refl _) (both _) mid
  exact ⟨_, s', run_after done, run_inv keep (each _) before (run_after done)⟩

/-- If what never grows is undiminished at the end, no pass has lessened it. -/
theorem each_of_steady (size : σ → Nat) (keep : ∀ s, cond s = true → I s → I (body s))
    (most : ∀ s, cond s = true → I s → size (body s) ≤ size s)
    (less : ∀ s, cond s = true → I s → ¬ ok s → size (body s) < size s) {fuel : Nat} (before : I s)
    (done : run cond body fuel s = some s') (steady : size s ≤ size s') (passes : Nat) :
    Each cond body ok passes s := by
  have falls : ∀ {fuel s}, I s → run cond body fuel s = some s' → size s' ≤ size s := by
    intro fuel s before done
    have free : Each cond body (fun _ => True) fuel s := each_of_all (fun _ => trivial) fuel s
    exact (run_inv (I := fun s' => I s' ∧ size s' ≤ size s)
      (fun s more _ ⟨here, le⟩ => ⟨keep s more here, Nat.le_trans (most s more here) le⟩) free
      ⟨before, Nat.le_refl _⟩ done).2
  induction passes generalizing fuel s with
  | zero => trivial
  | succ passes ih =>
      intro more
      cases fuel with
      | zero => simp [run, more] at done
      | succ fuel =>
          rw [run, if_pos more] at done
          have rest := falls (keep s more before) done
          refine ⟨?_, ih (keep s more before) done (Nat.le_trans (most s more before) steady)⟩
          by_contra bad
          exact absurd (less s more before bad) (Nat.not_lt.mpr (Nat.le_trans steady rest))

end Finally

/-- The simulation rule: related bodies make related loops. -/
theorem run_rel {τ : Type} {cond' : τ → Bool} {body' : τ → τ} {R : σ → τ → Prop} {t : τ}
    (test : ∀ s t, R s t → cond' t = cond s) (pass : ∀ s t, R s t → R (body s) (body' t))
    (related : R s t) (fuel : Nat) :
    Option.Rel R (run cond body fuel s) (run cond' body' fuel t) := by
  induction fuel generalizing s t with
  | zero =>
      simp only [run, test s t related]
      split
      · exact .none
      · exact .some related
  | succ fuel ih =>
      simp only [run, test s t related]
      split
      · exact ih (pass s t related)
      · exact .some related

section Folds

variable {α : Type} (step : σ → α → σ) (p : σ → α → Prop)

/-- Every element of a list meets `p` in the state the ones before it lead to. -/
def Along : σ → List α → Prop
  | _, [] => True
  | s, a :: as => p s a ∧ Along (step s a) as

instance decidableAlong [∀ s a, Decidable (p s a)] : ∀ (s : σ) (as : List α), Decidable (Along step p s as)
  | _, [] => isTrue trivial
  | s, a :: as =>
      have := decidableAlong (step s a) as
      inferInstanceAs (Decidable (p s a ∧ Along step p (step s a) as))

variable {step p}

theorem Along.here {before after : List α} {a : α} (along : Along step p s (before ++ a :: after)) :
    p (before.foldl step s) a := by
  induction before generalizing s with
  | nil => exact along.1
  | cons b before ih => exact ih along.2

end Folds

end Loop
