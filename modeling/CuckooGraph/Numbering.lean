import Mathlib.Data.Set.Function
import Mathlib.Tactic

/-! # Numbers in the order of first occurrence

The items of a list are entered into a register, each when it is first met, and
have the numbers from 1 on. What is entered later changes no number.
-/

namespace Numbering

variable {α : Type} [DecidableEq α] {names names' l : List α} {u v : α}

/-- Enter `v` unless it is there. -/
def enter (names : List α) (v : α) : List α := if v ∈ names then names else names ++ [v]

/-- The items of a list, each at its first occurrence. -/
def firsts (l : List α) : List α := l.foldl enter []

/-- The number of an item. -/
def number (names : List α) (v : α) : Nat := names.idxOf v + 1

theorem mem_enter : u ∈ enter names v ↔ u ∈ names ∨ u = v := by
  unfold enter
  split
  · rename_i known
    exact ⟨.inl, fun h => h.elim id fun same => same ▸ known⟩
  · simp

theorem mem_enter_self : v ∈ enter names v := mem_enter.mpr (.inr rfl)

theorem mem_enter_of_mem (known : u ∈ names) : u ∈ enter names v := mem_enter.mpr (.inl known)

theorem prefix_enter (names : List α) (v : α) : names <+: enter names v := by
  unfold enter
  split
  · exact List.prefix_rfl
  · exact List.prefix_append names [v]

theorem nodup_enter (nodup : names.Nodup) (v : α) : (enter names v).Nodup := by
  unfold enter
  split
  · exact nodup
  · rename_i unknown
    exact List.nodup_append.mpr ⟨nodup, List.nodup_singleton v, fun a ha b hb same =>
      unknown (List.mem_singleton.mp hb ▸ same ▸ ha)⟩

theorem mem_foldl_enter : u ∈ l.foldl enter names ↔ u ∈ names ∨ u ∈ l := by
  induction l generalizing names with
  | nil => simp
  | cons v l ih => rw [List.foldl_cons, ih, mem_enter, or_assoc, List.mem_cons]

theorem prefix_foldl_enter (l names : List α) : names <+: l.foldl enter names := by
  induction l generalizing names with
  | nil => exact List.prefix_rfl
  | cons v l ih => exact (prefix_enter names v).trans (ih _)

theorem nodup_foldl_enter (nodup : names.Nodup) (l : List α) : (l.foldl enter names).Nodup := by
  induction l generalizing names with
  | nil => exact nodup
  | cons v l ih => exact ih (nodup_enter nodup v)

theorem number_kept (later : names <+: names') (hv : v ∈ names) : number names' v = number names v :=
  congrArg (· + 1) (later.idxOf_eq_of_mem hv).symm

/-- The number of a new item is that of the items so far. -/
theorem number_new (unknown : v ∉ names) : number (enter names v) v = (enter names v).length := by
  rw [enter, if_neg unknown, number, List.idxOf_append_of_notMem unknown]
  simp

/-- The numbers are those from 1 on. -/
theorem number_bijOn (nodup : names.Nodup) : Set.BijOn (number names) {v | v ∈ names} (Set.Icc 1 names.length) := by
  refine ⟨fun v hv => ?_, fun u hu v hv same => ?_, fun i hi => ?_⟩
  · exact ⟨Nat.le_add_left 1 _, List.idxOf_lt_length_of_mem hv⟩
  · exact (List.idxOf_inj hu).mp (Nat.succ.inj same)
  · obtain ⟨low, high⟩ := hi
    have inside : i - 1 < names.length := by omega
    refine ⟨names[i - 1], List.getElem_mem inside, ?_⟩
    rw [number, nodup.idxOf_getElem]
    omega

theorem nodup_firsts (l : List α) : (firsts l).Nodup := nodup_foldl_enter List.nodup_nil l

theorem mem_firsts : u ∈ firsts l ↔ u ∈ l := by
  rw [firsts, mem_foldl_enter]
  simp

theorem length_firsts (l : List α) : (firsts l).length = l.toFinset.card := by
  rw [← List.toFinset_card_of_nodup (nodup_firsts l)]
  congr 1
  ext u
  rw [List.mem_toFinset, mem_firsts, List.mem_toFinset]

/-- What occurs first has the smaller number. -/
theorem number_lt (hu : u ∈ l) (hv : v ∈ l) (first : l.idxOf u < l.idxOf v) :
    number (firsts l) u < number (firsts l) v := by
  induction l using List.reverseRecOn with
  | nil => cases hu
  | append_singleton l x ih =>
      have more : firsts (l ++ [x]) = enter (firsts l) x := List.foldl_append
      have hu' : u ∈ l := by
        by_contra new
        have last := List.idxOf_lt_length_of_mem hv
        rw [List.length_append, List.length_singleton] at last
        rw [List.idxOf_append_of_notMem new] at first
        omega
      rw [List.idxOf_append_of_mem hu'] at first
      have kept := number_kept (prefix_enter (firsts l) x) (mem_firsts.mpr hu')
      rw [more, kept]
      by_cases old : v ∈ l
      · rw [List.idxOf_append_of_mem old] at first
        rw [number_kept (prefix_enter (firsts l) x) (mem_firsts.mpr old)]
        exact ih hu' old first
      · have new : v ∉ firsts l := fun known => old (mem_firsts.mp known)
        obtain rfl : v = x := by simpa [old] using hv
        rw [number_new new, enter, if_neg new, List.length_append, List.length_singleton]
        exact Nat.lt_succ_of_le (List.idxOf_lt_length_of_mem (mem_firsts.mpr hu'))

end Numbering
