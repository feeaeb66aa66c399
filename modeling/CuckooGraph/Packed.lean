import Mathlib.Data.Nat.Bitwise
import Mathlib.Logic.Function.Basic
import Mathlib.Tactic

/-! # Packed arrays

Numbers of a few bits, as many in a word of 64 bits as fit, so that none lies in two
words. A number is written with `|=`, over the zero which is there before.
-/

namespace Packed

/-- How many numbers fit into a word. -/
def perWord (size : Nat) : Nat := 64 / size

def get (size : Nat) (words : Nat → Nat) (i : Nat) : Nat :=
  (words (i / perWord size) >>> (i % perWord size * size)) &&& (2 ^ size - 1)

def put (size : Nat) (words : Nat → Nat) (i v : Nat) : Nat → Nat :=
  let word := words (i / perWord size) ||| (v <<< (i % perWord size * size)) % 2 ^ 64
  Function.update words (i / perWord size) word

variable {size i j v : Nat} {words : Nat → Nat}

theorem testBit_get (k : Nat) :
    (get size words i).testBit k =
      ((words (i / perWord size)).testBit (i % perWord size * size + k) && decide (k < size)) := by
  rw [get, Nat.testBit_and, Nat.testBit_shiftRight, Nat.testBit_two_pow_sub_one]

theorem get_lt : get size words i < 2 ^ size := by
  rw [get, Nat.and_two_pow_sub_one_eq_mod]
  exact Nat.mod_lt _ (Nat.two_pow_pos size)

/-- An empty array. -/
theorem get_zero : get size (fun _ => 0) i = 0 := by simp [get]

/-- A number ends inside its word. -/
theorem offset_le (pos : 0 < size) (le : size ≤ 64) : i % perWord size * size + size ≤ 64 := by
  have some : 0 < perWord size := Nat.div_pos le pos
  have inside : i % perWord size < perWord size := Nat.mod_lt i some
  calc i % perWord size * size + size = (i % perWord size + 1) * size := by rw [Nat.add_mul, Nat.one_mul]
    _ ≤ perWord size * size := Nat.mul_le_mul_right size inside
    _ ≤ 64 := Nat.div_mul_le_self 64 size

theorem get_put_self (pos : 0 < size) (le : size ≤ 64) (fits : v < 2 ^ size) (zero : get size words i = 0) :
    get size (put size words i v) i = v := by
  have ends := @offset_le size i pos le
  apply Nat.eq_of_testBit_eq
  intro k
  have before := congrArg (Nat.testBit · k) zero
  simp only [testBit_get, Nat.zero_testBit] at before
  rw [testBit_get, put, Function.update_self, Nat.testBit_or, Nat.testBit_mod_two_pow, Nat.testBit_shiftLeft]
  by_cases low : k < size
  · have inside : i % perWord size * size + k < 64 := by omega
    simp only [low, decide_true, Bool.and_true] at before ⊢
    simp [before, inside]
  · have high : v.testBit k = false :=
      Nat.testBit_lt_two_pow (fits.trans_le (Nat.pow_le_pow_right (by decide) (Nat.le_of_not_lt low)))
    simp [low, high]

/-- The other numbers are kept. -/
theorem get_put_ne (fits : v < 2 ^ size) (other : j ≠ i) : get size (put size words i v) j = get size words j := by
  by_cases word : j / perWord size = i / perWord size
  · apply Nat.eq_of_testBit_eq
    intro k
    rw [testBit_get, testBit_get, put, word, Function.update_self, Nat.testBit_or, Nat.testBit_mod_two_pow,
      Nat.testBit_shiftLeft]
    by_cases low : k < size
    · have place : j % perWord size ≠ i % perWord size := by
        intro same
        apply other
        rw [← Nat.div_add_mod j (perWord size), ← Nat.div_add_mod i (perWord size), word, same]
      have away : (decide (i % perWord size * size ≤ j % perWord size * size + k) &&
          v.testBit (j % perWord size * size + k - i % perWord size * size)) = false := by
        rcases Nat.lt_or_gt_of_ne place with before | behind
        · have ends : (j % perWord size + 1) * size ≤ i % perWord size * size := Nat.mul_le_mul_right size before
          rw [Nat.add_mul, Nat.one_mul] at ends
          rw [decide_eq_false (by omega), Bool.false_and]
        · have starts : (i % perWord size + 1) * size ≤ j % perWord size * size := Nat.mul_le_mul_right size behind
          rw [Nat.add_mul, Nat.one_mul] at starts
          rw [Nat.testBit_lt_two_pow (fits.trans_le (Nat.pow_le_pow_right (by decide) (by omega))), Bool.and_false]
      rw [away, Bool.and_false, Bool.or_false]
    · simp [low]
  · rw [get, put, Function.update_of_ne word, get]

end Packed
