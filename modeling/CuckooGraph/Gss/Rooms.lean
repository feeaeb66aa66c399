import CuckooGraph.Gss
import CuckooGraph.Probing

/-! # The baskets as a table with probe sequences

The rooms are the cells, an edge is labelled with its places and the fingerprints
of its nodes. The label of a room is packed into `idx`; as long as the byte of an
empty room is 0, the `|=` of `insert` writes it.
-/

namespace CuckooGraph.Gss

open Probing

/-- What tells the edges in a basket apart. -/
structure Label where
  places : Nat
  src : Nat
  dst : Nat
  deriving DecidableEq

/-- A room as a cell of the table: it is empty if its `src` is 0. -/
def Basket.cell (b : Basket) (j : Nat) : Option (Label × BitVec 16) :=
  if b.src j = 0 then none else some (⟨b.places j, b.src j, b.dst j⟩, b.weight j)

def view (value : Nat → Basket) (s : Nat × Nat) : Option (Label × BitVec 16) := (value s.1).cell s.2

/-- The label of an edge in a basket. -/
def Candidate.label (q : Candidate) (g1 g2 : Nat) : Label := ⟨q.places, g1, g2⟩

/-- The rooms of a candidate, with the label of the edge. -/
def Candidate.probes (P : Params) (g1 g2 : Nat) (q : Candidate) : List ((Nat × Nat) × Label) :=
  (List.range P.s).map fun j => ((q.pos, j), q.label g1 g2)

def probesOf (P : Params) (g1 g2 : Nat) (qs : List Candidate) : List ((Nat × Nat) × Label) :=
  qs.flatMap (Candidate.probes P g1 g2)

/-- Nothing has been written into an empty room. -/
def Basket.Fresh (b : Basket) : Prop := ∀ j, b.src j = 0 → b.places j = 0 ∧ b.dst j = 0

section Bytes

variable {idx places j j' : Nat}

theorem byte_or_self (fits : places < 2 ^ 8) (zero : (idx >>> (j <<< 3)) &&& ((1 <<< 8) - 1) = 0) :
    ((idx ||| (places <<< (j <<< 3))) >>> (j <<< 3)) &&& ((1 <<< 8) - 1) = places := by
  have mask : (1 <<< 8) - 1 = 2 ^ 8 - 1 := rfl
  rw [mask] at zero ⊢
  refine Nat.eq_of_testBit_eq fun i => ?_
  have none := congrArg (Nat.testBit · i) zero
  simp only [Nat.testBit_and, Nat.testBit_shiftRight, Nat.testBit_two_pow_sub_one, Nat.zero_testBit] at none
  simp only [Nat.testBit_and, Nat.testBit_shiftRight, Nat.testBit_or, Nat.testBit_shiftLeft,
    Nat.testBit_two_pow_sub_one, Nat.le_add_right, decide_true, Bool.true_and, Nat.add_sub_cancel_left]
  by_cases low : i < 8
  · simp only [low, decide_true, Bool.and_true] at none ⊢
    rw [none, Bool.false_or]
  · have high : places < 2 ^ i := fits.trans_le (Nat.pow_le_pow_right (by decide) (by omega))
    simp [low, Nat.testBit_lt_two_pow high]

theorem byte_or_other (fits : places < 2 ^ 8) (other : j' ≠ j) :
    ((idx ||| (places <<< (j <<< 3))) >>> (j' <<< 3)) &&& ((1 <<< 8) - 1) =
      (idx >>> (j' <<< 3)) &&& ((1 <<< 8) - 1) := by
  have mask : (1 <<< 8) - 1 = 2 ^ 8 - 1 := rfl
  rw [mask]
  refine Nat.eq_of_testBit_eq fun i => ?_
  simp only [Nat.testBit_and, Nat.testBit_shiftRight, Nat.testBit_or, Nat.testBit_shiftLeft,
    Nat.testBit_two_pow_sub_one]
  by_cases low : i < 8
  · have off : (decide (j <<< 3 ≤ j' <<< 3 + i) && places.testBit (j' <<< 3 + i - j <<< 3)) = false := by
      rw [Bool.and_eq_false_iff, decide_eq_false_iff_not]
      by_cases before : j' < j
      · left
        simp only [Nat.shiftLeft_eq]
        omega
      · right
        refine Nat.testBit_lt_two_pow (fits.trans_le (Nat.pow_le_pow_right (by decide) ?_))
        simp only [Nat.shiftLeft_eq]
        omega
    rw [off, Bool.or_false]
  · simp [low]

end Bytes

theorem plus_eq (v : BitVec 16) (weight : Int) : plus v weight = v + BitVec.ofInt 16 weight := by
  rw [plus, BitVec.ofInt_add, BitVec.ofInt_toInt]

section Room

variable {b : Basket} {q : Candidate} {g1 g2 j : Nat}

theorem Basket.cell_eq_some (nonzero : g1 ≠ 0) {v : BitVec 16} :
    b.cell j = some (q.label g1 g2, v) ↔ b.holds q g1 g2 j = true ∧ b.weight j = v := by
  unfold Basket.cell Basket.holds Candidate.label
  by_cases empty : b.src j = 0
  · have other : 0 ≠ g1 := nonzero.symm
    simp [empty, other]
  · simp [empty, and_assoc]

theorem Basket.holds_iff (nonzero : g1 ≠ 0) : b.holds q g1 g2 j = true ↔ ∃ v, b.cell j = some (q.label g1 g2, v) := by
  simp only [Basket.cell_eq_some nonzero]
  exact ⟨fun h => ⟨_, h, rfl⟩, fun ⟨_, h, _⟩ => h⟩

theorem Basket.cell_eq_none : b.cell j = none ↔ b.src j = 0 := by
  unfold Basket.cell
  split <;> simp_all

/-- The room is empty or holds the edge. -/
def Basket.accepts (b : Basket) (l : Label) (j : Nat) : Bool := (b.cell j).all fun e => e.1 = l

theorem Basket.accepts_iff (nonzero : g1 ≠ 0) :
    b.accepts (q.label g1 g2) j = true ↔ b.holds q g1 g2 j = true ∨ b.src j = 0 := by
  rw [Basket.holds_iff nonzero, ← Basket.cell_eq_none]
  unfold Basket.accepts
  cases b.cell j with
  | none => simp
  | some e =>
      cases e
      simp

/-- `insert` adds the weight in the first room which is empty or holds the edge. -/
theorem Basket.insert_some (nonzero : g1 ≠ 0) (fits : q.places < 2 ^ 8) (fresh : b.Fresh) (weight : Int) (js : List Nat)
    (first : js.find? (b.accepts (q.label g1 g2)) = some j) :
    ∃ b', b.insert q g1 g2 weight js = some b' ∧ b'.Fresh ∧ b'.cell = Function.update b.cell j
      (some (q.label g1 g2, ((b.cell j).map Prod.snd).getD 0 + BitVec.ofInt 16 weight)) := by
  induction js with
  | nil => cases first
  | cons j' js ih =>
      rw [List.find?_cons] at first
      unfold Basket.insert
      by_cases held : b.holds q g1 g2 j' = true
      · have here : b.accepts (q.label g1 g2) j' = true := (Basket.accepts_iff nonzero).mpr (.inl held)
        simp only [here, Option.some.injEq] at first
        subst first
        obtain ⟨v, cell⟩ := (Basket.holds_iff nonzero).mp held
        have weight_eq := ((Basket.cell_eq_some nonzero).mp cell).2
        rw [if_pos held]
        refine ⟨_, rfl, fresh, funext fun i => ?_⟩
        by_cases same : i = j'
        · subst same
          rw [Function.update_self, cell, Basket.cell_eq_some nonzero]
          exact ⟨held, by simp [plus_eq, weight_eq]⟩
        · rw [Function.update_of_ne same]
          simp [Basket.cell, Basket.places, Function.update_of_ne same]
      · rw [if_neg held]
        by_cases empty : b.src j' = 0
        · have here : b.accepts (q.label g1 g2) j' = true := (Basket.accepts_iff nonzero).mpr (.inr empty)
          simp only [here, Option.some.injEq] at first
          subst first
          rw [if_pos empty]
          refine ⟨_, rfl, fun i zero => ?_, funext fun i => ?_⟩
          · by_cases same : i = j'
            · subst same
              simp [nonzero] at zero
            · simp only [Function.update_of_ne same] at zero
              obtain ⟨places, dst⟩ := fresh i zero
              exact ⟨(byte_or_other fits same).trans places, by simpa only [Function.update_of_ne same] using dst⟩
          · by_cases same : i = j'
            · subst same
              rw [Function.update_self, Basket.cell_eq_none.mpr empty, Basket.cell_eq_some nonzero]
              refine ⟨?_, by simp⟩
              have places := byte_or_self fits (fresh i empty).1
              simpa [Basket.holds, Basket.places] using places
            · rw [Function.update_of_ne same]
              have places : ((b.idx ||| (q.places <<< (j' <<< 3))) >>> (i <<< 3)) &&& ((1 <<< 8) - 1) = b.places i :=
                byte_or_other fits same
              simp only [Basket.cell, Function.update_of_ne same]
              rw [Basket.places, places]
        · have taken : b.accepts (q.label g1 g2) j' = false := by
            rw [Bool.eq_false_iff, Ne, Basket.accepts_iff nonzero]
            exact not_or.mpr ⟨held, empty⟩
          simp only [taken] at first
          rw [if_neg empty]
          exact ih first

theorem Basket.insert_none (nonzero : g1 ≠ 0) (weight : Int) (js : List Nat)
    (full : js.find? (b.accepts (q.label g1 g2)) = none) : b.insert q g1 g2 weight js = none := by
  induction js with
  | nil => rfl
  | cons j' js ih =>
      obtain ⟨taken, rest⟩ := List.forall_mem_cons.mp (List.find?_eq_none.mp full)
      rw [Basket.accepts_iff nonzero, not_or] at taken
      rw [Basket.insert, if_neg taken.1, if_neg taken.2]
      exact ih (List.find?_eq_none.mpr rest)

end Room

section Matrix

variable {P : Params} {value : Nat → Basket} {g1 g2 : Nat} {qs : List Candidate}

theorem settle_cons (q : Candidate) (qs : List Candidate) :
    settle (view value) (probesOf P g1 g2 (q :: qs)) =
      match (List.range P.s).find? ((value q.pos).accepts (q.label g1 g2)) with
      | some j => some ((q.pos, j), q.label g1 g2)
      | none => settle (view value) (probesOf P g1 g2 qs) := by
  have room : (accepts (view value)) ∘ (fun j => ((q.pos, j), q.label g1 g2)) =
      (value q.pos).accepts (q.label g1 g2) := rfl
  rw [settle, probesOf, List.flatMap_cons, List.find?_append, Candidate.probes, List.find?_map, room]
  cases (List.range P.s).find? ((value q.pos).accepts (q.label g1 g2)) <;> rfl

/-- `insert` adds the weight where the probes of the edge end. -/
theorem insertMatrix_some (nonzero : g1 ≠ 0) (fits : ∀ q ∈ qs, q.places < 2 ^ 8) (fresh : ∀ pos, (value pos).Fresh)
    (weight : Int) {q : (Nat × Nat) × Label} (here : settle (view value) (probesOf P g1 g2 qs) = some q) :
    ∃ value', insertMatrix P value g1 g2 weight qs = some value' ∧ (∀ pos, (value' pos).Fresh) ∧
      view value' = Function.update (view value) q.1
        (some (q.2, ((view value q.1).map Prod.snd).getD 0 + BitVec.ofInt 16 weight)) := by
  induction qs with
  | nil => cases here
  | cons c qs ih =>
      obtain ⟨fits, rest⟩ := List.forall_mem_cons.mp fits
      rw [settle_cons] at here
      unfold insertMatrix
      cases first : (List.range P.s).find? ((value c.pos).accepts (c.label g1 g2)) with
      | some j =>
          simp only [first, Option.some.injEq] at here
          subst here
          obtain ⟨b, done, fresh', cells⟩ := Basket.insert_some nonzero fits (fresh c.pos) weight _ first
          refine ⟨Function.update value c.pos b, by rw [done], fun pos => ?_, funext fun s => ?_⟩
          · by_cases same : pos = c.pos
            · rwa [same, Function.update_self]
            · rw [Function.update_of_ne same]
              exact fresh pos
          · by_cases same : s.1 = c.pos
            · have cell : view (Function.update value c.pos b) s = b.cell s.2 := by
                rw [view, same, Function.update_self]
              rw [cell, cells]
              by_cases room : s.2 = j
              · have this : s = (c.pos, j) := Prod.ext same room
                rw [this, Function.update_self, Function.update_self]
                rfl
              · have other : s ≠ (c.pos, j) := fun this => room (congrArg Prod.snd this)
                rw [Function.update_of_ne room, Function.update_of_ne other, view, same]
            · have other : s ≠ (c.pos, j) := fun this => same (congrArg Prod.fst this)
              rw [Function.update_of_ne other, view, view, Function.update_of_ne same]
      | none =>
          simp only [first] at here
          rw [Basket.insert_none nonzero weight _ first]
          exact ih rest here

theorem insertMatrix_none (nonzero : g1 ≠ 0) (weight : Int)
    (full : settle (view value) (probesOf P g1 g2 qs) = none) : insertMatrix P value g1 g2 weight qs = none := by
  induction qs with
  | nil => rfl
  | cons c qs ih =>
      rw [settle_cons] at full
      cases first : (List.range P.s).find? ((value c.pos).accepts (c.label g1 g2)) with
      | some j => simp [first] at full
      | none =>
          simp only [first] at full
          rw [insertMatrix, Basket.insert_none nonzero weight _ first]
          exact ih full

/-- `edgeQuery` looks at all rooms of the candidates. -/
theorem findMatrix_some (nonzero : g1 ≠ 0) {v : BitVec 16} (found : findMatrix P value g1 g2 qs = some v) :
    ∃ q ∈ probesOf P g1 g2 qs, view value q.1 = some (q.2, v) := by
  induction qs with
  | nil => cases found
  | cons c qs ih =>
      unfold findMatrix at found
      rw [probesOf, List.flatMap_cons]
      cases first : (List.range P.s).find? ((value c.pos).holds c g1 g2) with
      | some j =>
          simp only [first, Option.some.injEq] at found
          refine ⟨((c.pos, j), c.label g1 g2), List.mem_append_left _ ?_, ?_⟩
          · exact List.mem_map.mpr ⟨j, List.mem_of_find?_eq_some first, rfl⟩
          · exact (Basket.cell_eq_some nonzero).mpr ⟨List.find?_some first, found⟩
      | none =>
          simp only [first] at found
          obtain ⟨q, hq, here⟩ := ih found
          exact ⟨q, List.mem_append_right _ hq, here⟩

theorem findMatrix_none (nonzero : g1 ≠ 0) (none : findMatrix P value g1 g2 qs = none) :
    ∀ q ∈ probesOf P g1 g2 qs, ∀ v, view value q.1 ≠ some (q.2, v) := by
  induction qs with
  | nil => intro q hq; cases hq
  | cons c qs ih =>
      unfold findMatrix at none
      intro q hq v here
      rw [probesOf, List.flatMap_cons, List.mem_append] at hq
      cases first : (List.range P.s).find? ((value c.pos).holds c g1 g2) with
      | some j => simp [first] at none
      | none =>
          simp only [first] at none
          rcases hq with hq | hq
          · obtain ⟨j, hj, rfl⟩ := List.mem_map.mp hq
            exact List.find?_eq_none.mp first j hj ((Basket.holds_iff nonzero).mpr ⟨v, here⟩)
          · exact ih none q hq v here

end Matrix

end CuckooGraph.Gss
