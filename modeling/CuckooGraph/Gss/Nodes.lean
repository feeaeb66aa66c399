import CuckooGraph.Gss.Rooms

/-! # Compressed nodes and the places of their edges

A place in the sequence of a fingerprint can be undone: the loop which climbs from
a row by the width of the matrix ends with the row number of the node. So an edge
can be read off its room, and no two edges have the same label in the same basket.
-/

namespace CuckooGraph.Gss

open Probing

variable {P : Params}

def Mapnode.Valid (P : Params) (a : Mapnode) : Prop := a.h < P.w ∧ a.g ≠ 0 ∧ a.g < 2 ^ P.f

/-- The nodes of the compressed graph. -/
abbrev Node (P : Params) := { a : Mapnode // a.Valid P }

theorem node_valid (hash : UInt32) : (node P hash).Valid P := by
  have more : 1 < 2 ^ P.f := Nat.one_lt_two_pow P.f_pos.ne'
  refine ⟨Nat.mod_lt _ P.w_pos, ?_, ?_⟩
  · simp only [node]
    split <;> omega
  · have low : hash.toNat &&& (2 ^ P.f - 1) < 2 ^ P.f := by
      rw [Nat.and_two_pow_sub_one_eq_mod]
      exact Nat.mod_lt _ (by omega)
    simp only [node]
    split <;> omega

theorem key_eq (a : Mapnode) : a.key P = a.h * 2 ^ P.f + a.g := by rw [Mapnode.key, Nat.shiftLeft_eq]

theorem unpack_key {a : Mapnode} (valid : a.Valid P) : unpack P (a.key P) = a := by
  obtain ⟨-, -, low⟩ := valid
  have pos : 0 < 2 ^ P.f := by omega
  cases a with
  | mk h g =>
      simp only [unpack, key_eq, Mapnode.mk.injEq, Nat.shiftRight_eq_div_pow]
      constructor
      · rw [Nat.add_comm, Nat.add_mul_div_right _ _ pos, Nat.div_eq_of_lt low, Nat.zero_add]
      · rw [Nat.add_comm, Nat.add_mul_mod_self_right, Nat.mod_eq_of_lt low]

theorem key_inj {a b : Mapnode} (ha : a.Valid P) (hb : b.Valid P) : a.key P = b.key P ↔ a = b := by
  refine ⟨fun same => ?_, congrArg _⟩
  rw [← unpack_key ha, same, unpack_key hb]

theorem key_lt {a : Mapnode} (valid : a.Valid P) : a.key P < P.w * 2 ^ P.f := by
  obtain ⟨row, -, low⟩ := valid
  rw [key_eq]
  calc a.h * 2 ^ P.f + a.g < (a.h + 1) * 2 ^ P.f := by rw [Nat.add_mul, Nat.one_mul]; omega
    _ ≤ P.w * 2 ^ P.f := Nat.mul_le_mul_right _ row

theorem tmp_eq (g i : Nat) : tmp g i = next^[i] g := by
  induction i with
  | zero => rfl
  | succ i ih => rw [Function.iterate_succ_apply', tmp, ih]

theorem climb_spec {shifter fuel h : Nat} (enough : shifter ≤ h + fuel) (near : h < shifter + P.w) :
    shifter ≤ climb P shifter fuel h ∧ climb P shifter fuel h < shifter + P.w ∧
      climb P shifter fuel h % P.w = h % P.w := by
  have wide := P.w_pos
  induction fuel generalizing h with
  | zero => exact ⟨enough, near, rfl⟩
  | succ fuel ih =>
      unfold climb
      split
      · obtain ⟨low, high, same⟩ := @ih (h + P.w) (by omega) (by omega)
        exact ⟨low, high, same.trans (Nat.add_mod_right h P.w)⟩
      · exact ⟨by omega, near, rfl⟩

/-- The row number of a node comes back from a row and its place. -/
theorem original_eq {a : Mapnode} (valid : a.Valid P) (i : Nat) :
    original P a.g i ((a.h + tmp a.g i) % P.w) = a := by
  have wide := P.w_pos
  have row := Nat.mod_lt (a.h + tmp a.g i) wide
  obtain ⟨low, high, same⟩ :=
    @climb_spec P (next^[i] a.g) (next^[i] a.g) ((a.h + tmp a.g i) % P.w) (by omega) (by omega)
  simp only [original]
  generalize climb P (next^[i] a.g) (next^[i] a.g) ((a.h + tmp a.g i) % P.w) = c at low high same ⊢
  have shifted : (c - next^[i] a.g + next^[i] a.g) ≡ a.h + next^[i] a.g [MOD P.w] := by
    rw [Nat.sub_add_cancel low, ← tmp_eq]
    exact same.trans (Nat.mod_mod _ _)
  have rows : (c - next^[i] a.g) % P.w = a.h % P.w := Nat.ModEq.add_right_cancel' _ shifted
  rw [Nat.mod_eq_of_lt (by omega), Nat.mod_eq_of_lt valid.1] at rows
  rw [rows]

section Places

theorem candidate_places (a b : Mapnode) {i1 : Nat} (low : i1 < 16) (i2 : Nat) :
    (candidate P a b i1 i2).places = i2 * 16 + i1 := by
  rw [Candidate.places, candidate, Nat.or_comm, ← Nat.shiftLeft_add_eq_or_of_lt low, Nat.shiftLeft_eq]

theorem candidate_places_lt (a b : Mapnode) {i1 i2 : Nat} (low : i1 < P.r) (high : i2 < P.r) :
    (candidate P a b i1 i2).places < 2 ^ 8 := by
  have bound := P.r_le
  rw [candidate_places a b (by omega)]
  omega

theorem srcPlace_eq (b : Basket) (j : Nat) : b.srcPlace j = b.places j % 16 := by
  have low : (1 <<< 4) - 1 = 2 ^ 4 - 1 := rfl
  have high : (1 <<< 8) - 1 = 2 ^ 8 - 1 := rfl
  rw [Basket.srcPlace, Basket.places, low, high, Nat.and_two_pow_sub_one_eq_mod, Nat.and_two_pow_sub_one_eq_mod]
  omega

theorem dstPlace_eq (b : Basket) (j : Nat) : b.dstPlace j = b.places j / 16 := by
  have low : (1 <<< 4) - 1 = 2 ^ 4 - 1 := rfl
  have high : (1 <<< 8) - 1 = 2 ^ 8 - 1 := rfl
  rw [Basket.dstPlace, Basket.places, low, high, Nat.and_two_pow_sub_one_eq_mod, Nat.and_two_pow_sub_one_eq_mod,
    Nat.shiftRight_add, Nat.shiftRight_eq_div_pow _ 4]
  omega

theorem mem_candidates {a b : Mapnode} {n key : Nat} {q : Candidate} (hq : q ∈ candidates P a b n key) :
    ∃ i1 < P.r, ∃ i2 < P.r, q = candidate P a b i1 i2 := by
  induction n generalizing key with
  | zero => cases hq
  | succ n ih =>
      rcases List.mem_cons.mp hq with rfl | hq
      · have square : 0 < P.r * P.r := Nat.mul_pos P.r_pos P.r_pos
        exact ⟨_, Nat.div_lt_of_lt_mul (Nat.mod_lt _ square), _, Nat.mod_lt _ P.r_pos, rfl⟩
      · exact ih hq

end Places

/-- The rooms of an edge, in the order in which they are tried. -/
def probes (P : Params) (e : Node P × Node P) : List ((Nat × Nat) × Label) :=
  probesOf P e.1.1.g e.2.1.g (candidates P e.1.1 e.2.1 P.p (e.1.1.g + e.2.1.g))

theorem mem_probes {e : Node P × Node P} {q : (Nat × Nat) × Label} (hq : q ∈ probes P e) :
    ∃ i1 < P.r, ∃ i2 < P.r, ∃ j < P.s,
      q = (((candidate P e.1.1 e.2.1 i1 i2).pos, j), (candidate P e.1.1 e.2.1 i1 i2).label e.1.1.g e.2.1.g) := by
  obtain ⟨c, hc, hq⟩ := List.mem_flatMap.mp hq
  obtain ⟨i1, h1, i2, h2, rfl⟩ := mem_candidates hc
  obtain ⟨j, hj, rfl⟩ := List.mem_map.mp hq
  exact ⟨i1, h1, i2, h2, j, List.mem_range.mp hj, rfl⟩

/-- Row and column of a basket. -/
theorem pos_inj {p1 p2 p1' p2' : Nat} (h2 : p2 < P.w) (h2' : p2' < P.w) (same : p1 * P.w + p2 = p1' * P.w + p2') :
    p1 = p1' ∧ p2 = p2' := by
  have wide := P.w_pos
  have rows := congrArg (· / P.w) same
  have columns := congrArg (· % P.w) same
  simp only [Nat.mul_comm _ P.w, Nat.mul_add_div wide, Nat.div_eq_of_lt h2, Nat.div_eq_of_lt h2', Nat.add_zero] at rows
  simp only [Nat.mul_comm _ P.w, Nat.mul_add_mod, Nat.mod_eq_of_lt h2, Nat.mod_eq_of_lt h2'] at columns
  exact ⟨rows, columns⟩

/-- The rows of two nodes with one fingerprint differ. -/
theorem row_inj {a b : Mapnode} (ha : a.Valid P) (hb : b.Valid P) {i : Nat} (g : a.g = b.g)
    (row : (a.h + tmp a.g i) % P.w = (b.h + tmp b.g i) % P.w) : a = b := by
  rw [← original_eq ha i, row, g, original_eq hb i]

/-- No two edges have the same label in the same basket. -/
theorem probes_apart : Store.Apart (probes P) := by
  intro q e e' hq hq'
  obtain ⟨i1, h1, i2, h2, j, -, rfl⟩ := mem_probes hq
  obtain ⟨i1', h1', i2', h2', j', -, same⟩ := mem_probes hq'
  have bound := P.r_le
  simp only [Prod.mk.injEq, Candidate.label, Label.mk.injEq] at same
  obtain ⟨⟨pos, -⟩, places, src, dst⟩ := same
  rw [candidate_places _ _ (by omega), candidate_places _ _ (by omega)] at places
  obtain rfl : i1 = i1' := by omega
  obtain rfl : i2 = i2' := by omega
  obtain ⟨rows, columns⟩ := pos_inj (Nat.mod_lt _ P.w_pos) (Nat.mod_lt _ P.w_pos) pos
  exact Prod.ext (Subtype.ext (row_inj e.1.2 e'.1.2 src rows)) (Subtype.ext (row_inj e.2.2 e'.2.2 dst columns))

end CuckooGraph.Gss
