import CuckooGraph.Auxo.Walk

/-! # The rooms as a table with probe sequences

The rooms of all matrices are the cells, an edge is labelled with its places and what is
left of its fingerprints. They are packed; as long as the fields of an empty room are
0, the `|=` of `insert` writes them.
-/

namespace CuckooGraph.Auxo

open Probing BasketNode

variable {P : Params}

namespace Gbasket

/-- A room is empty if its weight is 0. -/
def cell (P : Params) (level : Nat) (v : Gbasket) (pos : Nat) : Option (Label × BitVec 16) :=
  if v.weight pos = 0 then none else some (⟨v.places P pos, v.src P level pos, v.dst P level pos⟩, v.weight pos)

/-- Nothing has been written into an empty room. -/
def Fresh (P : Params) (level : Nat) (v : Gbasket) : Prop :=
  ∀ pos, v.weight pos = 0 → v.src P level pos = 0 ∧ v.dst P level pos = 0 ∧ v.places P pos = 0

variable {v : Gbasket} {level pos : Nat} {q : Candidate} {a b : Node P} {weight : Int} {w : BitVec 16}

theorem cell_blank : blank.cell P level pos = none := if_pos rfl

theorem fresh_blank : blank.Fresh P level := fun _ _ => ⟨Packed.get_zero, Packed.get_zero, Packed.get_zero⟩

theorem holds_iff : v.holds P level (srcLeft a.1.g level) (dstLeft b.1.g level) q = true ↔
    (⟨v.places P q.pos, v.src P level q.pos, v.dst P level q.pos⟩ : Label) = label P a.1 b.1 level q := by
  simp only [holds, label, Label.mk.injEq, decide_eq_true_eq]
  tauto

theorem cell_eq_some : v.cell P level q.pos = some (label P a.1 b.1 level q, w) ↔
    v.weight q.pos ≠ 0 ∧ v.holds P level (srcLeft a.1.g level) (dstLeft b.1.g level) q = true ∧ v.weight q.pos = w := by
  rw [holds_iff, cell]
  split <;> simp_all

theorem cell_eq_none : v.cell P level pos = none ↔ v.weight pos = 0 := by
  unfold cell
  split <;> simp_all

/-- The fingerprints left fit into their fields. -/
theorem left_lt (inside : level < depth P) (a b : Node P) :
    (srcLeft a.1.g level < 2 ^ srcFigSize P level ∧ 0 < srcFigSize P level ∧ srcFigSize P level ≤ 64) ∧
      dstLeft b.1.g level < 2 ^ dstFigSize P level ∧ 0 < dstFigSize P level ∧ dstFigSize P level ≤ 64 := by
  have small := P.f_le
  have fits : ∀ g s k, g < 2 ^ P.f → s + k = P.f → g >>> s < 2 ^ k := by
    intro g s k low all
    rw [Nat.shiftRight_eq_div_pow]
    apply Nat.div_lt_of_lt_mul
    rwa [← Nat.pow_add, all]
  simp only [depth, srcFigSize, dstFigSize, srcLeft, dstLeft, Nat.shiftRight_one, Nat.and_one_is_mod] at inside ⊢
  refine ⟨⟨fits _ _ _ a.2.2.2 ?_, ?_, ?_⟩, fits _ _ _ b.2.2.2 ?_, ?_, ?_⟩ <;> omega

/-- An edge is written into an empty room. -/
theorem cell_write (inside : level < depth P) (fresh : v.Fresh P level) (empty : v.weight q.pos = 0)
    (places : q.places P < 2 ^ rfnum P) (nonzero : BitVec.ofInt 16 weight ≠ 0) :
    let v' := v.write P level (srcLeft a.1.g level) (dstLeft b.1.g level) weight q
    (∀ pos, v'.cell P level pos =
        if pos = q.pos then some (label P a.1 b.1 level q, BitVec.ofInt 16 weight) else v.cell P level pos) ∧
      v'.Fresh P level := by
  intro v'
  obtain ⟨⟨srcFits, srcPos, srcLe⟩, dstFits, dstPos, dstLe⟩ := left_lt inside a b
  obtain ⟨src, dst, idx⟩ := fresh q.pos empty
  have small : 0 < rfnum P ∧ rfnum P ≤ 64 := by
    have pos := P.halfR_pos
    have le := P.rfnum_le
    have small := P.f_le
    rw [rfnum]
    omega
  have self : v'.src P level q.pos = srcLeft a.1.g level ∧ v'.dst P level q.pos = dstLeft b.1.g level ∧
      v'.places P q.pos = q.places P := by
    refine ⟨Packed.get_put_self srcPos srcLe srcFits src, Packed.get_put_self dstPos dstLe dstFits dst, ?_⟩
    exact Packed.get_put_self small.1 small.2 places idx
  have others : ∀ pos, pos ≠ q.pos → v'.src P level pos = v.src P level pos ∧ v'.dst P level pos = v.dst P level pos ∧
      v'.places P pos = v.places P pos ∧ v'.weight pos = v.weight pos := by
    intro pos other
    refine ⟨Packed.get_put_ne srcFits other, Packed.get_put_ne dstFits other, Packed.get_put_ne places other, ?_⟩
    exact Function.update_of_ne other _ _
  have new : v'.weight q.pos = BitVec.ofInt 16 weight := Function.update_self _ _ _
  constructor
  · intro pos
    by_cases here : pos = q.pos
    · subst here
      rw [if_pos rfl]
      apply cell_eq_some.mpr
      refine ⟨new ▸ nonzero, holds_iff.mpr ?_, new⟩
      rw [self.1, self.2.1, self.2.2, label]
    · obtain ⟨src, dst, idx, weight⟩ := others pos here
      rw [if_neg here, cell, cell, src, dst, idx, weight]
  · intro pos zero
    by_cases here : pos = q.pos
    · subst here
      exact absurd (new.symm.trans zero) nonzero
    · obtain ⟨src, dst, idx, weight⟩ := others pos here
      rw [src, dst, idx]
      exact fresh pos (weight ▸ zero)

/-- A weight is added in the room of an edge. -/
theorem cell_bump (fresh : v.Fresh P level)
    (mine : v.holds P level (srcLeft a.1.g level) (dstLeft b.1.g level) q = true)
    (nonzero : v.weight q.pos + BitVec.ofInt 16 weight ≠ 0) :
    (∀ pos, (v.bump weight q).cell P level pos =
        if pos = q.pos then some (label P a.1 b.1 level q, v.weight q.pos + BitVec.ofInt 16 weight) else v.cell P level pos) ∧
      (v.bump weight q).Fresh P level := by
  have sum : BitVec.ofInt 16 (((v.weight q.pos).toNat : Int) + weight) = v.weight q.pos + BitVec.ofInt 16 weight := by
    rw [BitVec.ofInt_add, BitVec.ofInt_natCast, BitVec.ofNat_toNat, BitVec.setWidth_eq]
  have new : (v.bump weight q).weight q.pos = v.weight q.pos + BitVec.ofInt 16 weight :=
    (Function.update_self _ _ _).trans sum
  constructor
  · intro pos
    by_cases here : pos = q.pos
    · subst here
      rw [if_pos rfl]
      exact cell_eq_some.mpr ⟨new ▸ nonzero, mine, new⟩
    · have kept : (v.bump weight q).weight pos = v.weight pos := Function.update_of_ne here _ _
      rw [if_neg here, cell, cell, kept]
      rfl
  · intro pos zero
    by_cases here : pos = q.pos
    · subst here
      exact absurd (new.symm.trans zero) nonzero
    · exact fresh pos ((Function.update_of_ne here _ _).symm.trans zero)

end Gbasket

/-- The rooms of all matrices as cells of a table. -/
def view (P : Params) (t : BasketNode) (s : Spot) : Option (Label × BitVec 16) :=
  (t.matrix s.1).bind fun v => v.cell P s.1.length s.2

/-- The tree holds what the table holds. -/
structure Models (t : BasketNode) (st : Store (Node P × Node P) Spot Label (BitVec 16)) : Prop where
  cells : view P t = st.cells
  fresh : ∀ path v, t.matrix path = some v → v.Fresh P path.length
  full : t.Full
  low : ∀ path v, t.matrix path = some v → path.length < depth P
  root : t ≠ .null
  spilled : ∀ e, st.spilled e = none

theorem models_new : Models mainTree (Store.empty : Store (Node P × Node P) Spot Label (BitVec 16)) where
  cells := by
    funext ⟨path, pos⟩
    cases path with
    | nil => rfl
    | cons way path => cases way <;> rfl
  fresh := fun path v here => by
    cases path with
    | nil =>
        obtain rfl := Option.some.inj here
        exact Gbasket.fresh_blank
    | cons way path => cases way <;> cases here
  full := ⟨rfl, trivial, trivial⟩
  low := fun path v here => by
    have some := P.f_pos
    cases path with
    | nil =>
        rw [depth, List.length_nil]
        omega
    | cons way path => cases way <;> cases here
  root := by simp [mainTree]
  spilled := fun _ => rfl

section Settle

/-- The first hit over some levels. -/
theorem find?_levels {α : Type} {f : Nat → List α} {p : α → Bool} {n : Nat} {x : α}
    (found : ((List.range n).flatMap f).find? p = some x) :
    ∃ m < n, (f m).find? p = some x ∧ ∀ l < m, ∀ y ∈ f l, p y = false := by
  induction n with
  | zero => simp at found
  | succ n ih =>
      rw [List.range_succ, List.flatMap_append, List.find?_append] at found
      cases earlier : ((List.range n).flatMap f).find? p with
      | some y =>
          rw [earlier, Option.some_or] at found
          obtain ⟨m, hm, here, before⟩ := ih (earlier.trans found)
          exact ⟨m, Nat.lt_succ_of_lt hm, here, before⟩
      | none =>
          rw [earlier, Option.none_or, List.flatMap_singleton] at found
          refine ⟨n, Nat.lt_succ_self n, found, fun l hl y hy => ?_⟩
          have fails := List.find?_eq_none.mp earlier y (List.mem_flatMap.mpr ⟨l, List.mem_range.mpr hl, hy⟩)
          simpa using fails

/-- The first hit of a test is the first of a stronger one, if it passes this one. -/
theorem find?_stronger {α : Type} {l : List α} {p r : α → Bool} {x : α} (found : l.find? p = some x) (passes : r x = true)
    (stronger : ∀ y ∈ l, r y = true → p y = true) : l.find? r = some x := by
  induction l with
  | nil => cases found
  | cons y l ih =>
      rw [List.find?_cons] at found ⊢
      cases first : p y with
      | true =>
          rw [first] at found
          obtain rfl := Option.some.inj found
          rw [passes]
      | false =>
          rw [first] at found
          have fails : r y = false := by
            by_contra hit
            rw [stronger y List.mem_cons_self (by simpa using hit)] at first
            cases first
          rw [fails]
          exact ih found fun z hz => stronger z (List.mem_cons_of_mem y hz)

end Settle

end CuckooGraph.Auxo
