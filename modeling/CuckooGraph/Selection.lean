import Mathlib.Data.List.Perm.Basic
import Mathlib.Order.Lattice
import Mathlib.Tactic

/-! # Selection with a heap

The greatest item is at the front of a heap, and is taken off again and again.
-/

namespace Selection

variable {α : Type} [LinearOrder α]

/-- Take the `k` greatest items off, or nothing if there are less. -/
def select : Nat → List α → Option (List α)
  | 0, _ => some []
  | k + 1, l => l.max?.bind fun a => (select k (l.erase a)).map (a :: ·)

variable {l : List α} {a : α}

theorem max?_iff : l.max? = some a ↔ a ∈ l ∧ ∀ b ∈ l, b ≤ a := List.max?_eq_some_iff

theorem select_none {k : Nat} (few : l.length < k) : select k l = none := by
  induction k generalizing l with
  | zero => omega
  | succ k ih =>
      rw [select]
      cases front : l.max? with
      | none => rfl
      | some a =>
          have length := List.length_erase_of_mem (max?_iff.mp front).1
          have some := List.length_pos_of_mem (max?_iff.mp front).1
          rw [Option.bind_some, ih (by omega), Option.map_none]

/-- What is taken off and what is left. -/
theorem select_spec {k : Nat} (enough : k ≤ l.length) : ∃ chosen rest, select k l = some chosen ∧
    (chosen ++ rest).Perm l ∧ chosen.length = k ∧ chosen.Pairwise (fun a b => b ≤ a) ∧
    ∀ a ∈ chosen, ∀ b ∈ rest, b ≤ a := by
  induction k generalizing l with
  | zero => exact ⟨[], l, rfl, .refl l, rfl, List.Pairwise.nil, by simp⟩
  | succ k ih =>
      have some : l ≠ [] := fun none => by simp [none] at enough
      obtain ⟨a, front⟩ := Option.isSome_iff_exists.mp (List.isSome_max?_of_ne_nil some)
      obtain ⟨inside, greatest⟩ := max?_iff.mp front
      have length := List.length_erase_of_mem inside
      obtain ⟨chosen, rest, selected, split, count, sorted, above⟩ := @ih (l.erase a) (by omega)
      have below : ∀ b ∈ chosen ++ rest, b ≤ a := fun b hb => greatest b (List.mem_of_mem_erase (split.subset hb))
      refine ⟨a :: chosen, rest, ?_, ?_, by rw [List.length_cons, count], ?_, ?_⟩
      · rw [select, front, Option.bind_some, selected, Option.map_some]
      · exact (split.cons a).trans (List.perm_cons_erase inside).symm
      · exact List.pairwise_cons.mpr ⟨fun b hb => below b (List.mem_append_left rest hb), sorted⟩
      · intro c hc b hb
        rcases List.mem_cons.mp hc with rfl | hc
        · exact below b (List.mem_append_right chosen hb)
        · exact above c hc b hb

end Selection
