import Mathlib.Tactic

/-! # Integer instructions of AVX2

A register has 256 bits. The instructions here look at it as 8 lanes of 32 bits; lane
`i` is what lies at the address of the register plus `4 * i` bytes.
-/

namespace Avx2

abbrev M256i := BitVec 256

def lane (v : M256i) (i : Nat) : BitVec 32 := v.extractLsb' (32 * i) 32

/-- The word with these bits, the lowest first. -/
def ofBits {w : Nat} (f : Nat → Bool) : BitVec w := (BitVec.iunfoldr (fun i _ => ((), f i)) ()).2

def ofLanes (f : Nat → BitVec 32) : M256i := ofBits fun b => (f (b / 32)).getLsbD (b % 32)

/-- `_mm256_set1_epi32` -/
def mm256Set1Epi32 (x : BitVec 32) : M256i := ofLanes fun _ => x

/-- `_mm256_cmpeq_epi32` -/
def mm256CmpeqEpi32 (a b : M256i) : M256i :=
  ofLanes fun i => if lane a i = lane b i then BitVec.allOnes 32 else 0#32

/-- `_mm256_movemask_ps`: the sign bits of the lanes. -/
def mm256MovemaskPs (v : M256i) : BitVec 32 := ofBits fun i => decide (i < 8) && (lane v i).msb

/-- `__tzcnt_u32`: the number of the first bit that is set, 32 if there is none. -/
def tzcntU32 (x : BitVec 32) : BitVec 32 := x.ctz

@[simp] theorem getLsbD_ofBits {w : Nat} (f : Nat → Bool) (i : Nat) :
    (ofBits f : BitVec w).getLsbD i = (decide (i < w) && f i) := by
  by_cases hi : i < w
  · rw [decide_eq_true hi, Bool.true_and]
    exact BitVec.iunfoldr_getLsbD (fun _ => ()) ⟨i, hi⟩ fun _ => rfl
  · rw [BitVec.getLsbD_of_ge _ i (Nat.le_of_not_lt hi), decide_eq_false hi, Bool.false_and]

@[simp] theorem lane_ofLanes (f : Nat → BitVec 32) {i : Nat} (hi : i < 8) : lane (ofLanes f) i = f i := by
  ext b hb
  have bit : 32 * i + b < 256 := by omega
  have place : (32 * i + b) / 32 = i ∧ (32 * i + b) % 32 = b := by omega
  rw [lane, BitVec.getElem_extractLsb', ofLanes, getLsbD_ofBits, decide_eq_true bit, Bool.true_and,
    place.1, place.2, BitVec.getLsbD_eq_getElem hb]

@[simp] theorem lane_set1 (x : BitVec 32) {i : Nat} (hi : i < 8) : lane (mm256Set1Epi32 x) i = x :=
  lane_ofLanes _ hi

/-- The mask of a comparison has a bit for each lane which is equal. -/
theorem movemask_cmpeq (a b : M256i) (i : Nat) :
    (mm256MovemaskPs (mm256CmpeqEpi32 a b)).getLsbD i = (decide (i < 8) && lane a i == lane b i) := by
  by_cases hi : i < 8
  · rw [mm256MovemaskPs, getLsbD_ofBits, decide_eq_true (by omega : i < 32), Bool.true_and, mm256CmpeqEpi32]
    have sign : (BitVec.allOnes 32).msb = true := by decide
    by_cases same : lane a i = lane b i
    · simp only [lane_ofLanes _ hi, same, if_true, sign, beq_self_eq_true]
    · simp [hi, same]
  · rw [mm256MovemaskPs, getLsbD_ofBits]
    simp [hi]

/-- Counting zeros finds the first element of which the bit is set. -/
theorem findIdx?_eq_ctz {α : Type} {w : Nat} {x : BitVec w} {l : List α} {p : α → Bool}
    (bits : ∀ i, x.getLsbD i = l[i]?.any p) : l.findIdx? p = if x = 0#w then none else some x.ctz.toNat := by
  split
  · rename_i zero
    rw [List.findIdx?_eq_none_iff]
    intro c hc
    obtain ⟨i, hi, rfl⟩ := List.mem_iff_getElem.mp hc
    have bit := bits i
    rw [zero, BitVec.getLsbD_zero, List.getElem?_eq_getElem hi] at bit
    simpa using bit.symm
  · rename_i nonzero
    have first := bits x.ctz.toNat
    rw [BitVec.getLsbD_true_ctz_of_ne_zero nonzero] at first
    rw [List.findIdx?_eq_some_iff_getElem]
    have inside : x.ctz.toNat < l.length := by
      by_contra out
      rw [List.getElem?_eq_none (Nat.le_of_not_lt out)] at first
      cases first
    rw [List.getElem?_eq_getElem inside] at first
    refine ⟨inside, first.symm, fun j hj => ?_⟩
    have earlier := bits j
    rw [BitVec.getLsbD_false_of_lt_ctz hj, List.getElem?_eq_getElem (hj.trans inside)] at earlier
    simpa using earlier.symm

end Avx2
