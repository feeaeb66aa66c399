import CuckooGraph.Auxo
import CuckooGraph.Probing

/-! # Compressed nodes and the places of their edges

The bits used up on the way down to a matrix and the fingerprints in a room make up
the whole fingerprints again, and `calHash` undoes a place in a number sequence. So
an edge can be read off its room, and no two edges have the same label in a room.
-/

namespace CuckooGraph.Auxo

open Probing
open Gss (Mapnode next tmp)

variable {P : Params}

def Valid (P : Params) (a : Mapnode) : Prop := a.h < P.w ∧ a.g ≠ 0 ∧ a.g < 2 ^ P.f

/-- The nodes of the compressed graph. -/
abbrev Node (P : Params) := { a : Mapnode // Valid P a }

theorem node_valid (hash : UInt64) : Valid P (node P hash) := by
  have more : 1 < 2 ^ P.f := Nat.one_lt_two_pow P.f_pos.ne'
  have low : hash.toNat &&& (2 ^ P.f - 1) < 2 ^ P.f := by
    rw [Nat.and_two_pow_sub_one_eq_mod]
    exact Nat.mod_lt _ (by omega)
  refine ⟨Nat.mod_lt _ P.w_pos, ?_, ?_⟩
  · simp only [node]
    split <;> omega
  · simp only [node]
    split <;> omega

def nodeOf (P : Params) (x : UInt64) : Node P := ⟨node P x, node_valid x⟩

theorem key_eq (a : Mapnode) : key P a = a.h * 2 ^ P.f + a.g := by rw [key, Nat.shiftLeft_eq]

theorem unpack_key {a : Mapnode} (valid : Valid P a) : unpack P (key P a) = a := by
  obtain ⟨-, -, low⟩ := valid
  have pos : 0 < 2 ^ P.f := by omega
  cases a with
  | mk h g =>
      simp only [unpack, key_eq, Mapnode.mk.injEq, Nat.shiftRight_eq_div_pow, Nat.and_two_pow_sub_one_eq_mod]
      constructor
      · rw [Nat.add_comm, Nat.add_mul_div_right _ _ pos, Nat.div_eq_of_lt low, Nat.zero_add]
      · rw [Nat.add_comm, Nat.add_mul_mod_self_right, Nat.mod_eq_of_lt low]

theorem key_inj {a b : Node P} : key P a.1 = key P b.1 ↔ a = b := by
  constructor
  · intro same
    apply Subtype.ext
    rw [← unpack_key a.2, same, unpack_key b.2]
  · intro same
    rw [same]

section CalHash

/-- The search comes to the first multiple which is large enough. -/
theorem bisect_spec {shifter k fuel left right : Nat} (enough : right ≤ left + fuel) (le : left ≤ right)
    (below : ∀ m < left, k + P.w * m < shifter) (above : shifter ≤ k + P.w * right) :
    (∀ m < bisect P shifter k fuel left right, k + P.w * m < shifter) ∧
      shifter ≤ k + P.w * bisect P shifter k fuel left right := by
  induction fuel generalizing left right with
  | zero =>
      obtain rfl : left = right := by omega
      exact ⟨below, above⟩
  | succ fuel ih =>
      rw [bisect]
      split
      · simp only [Nat.shiftRight_one]
        split
        · rename_i lt small
          apply ih (by omega) (by omega) _ above
          intro m hm
          exact (Nat.add_le_add_left (Nat.mul_le_mul_left P.w (by omega)) k).trans_lt small
        · rename_i lt large
          exact ih (by omega) (by omega) below (Nat.le_of_not_lt large)
      · obtain rfl : left = right := by omega
        exact ⟨below, above⟩

/-- What comes back has the same row or column and is the number of a row. -/
theorem calHash_spec {g i k : Nat} (low : k < P.w) :
    calHash P g i k < P.w ∧ (calHash P g i k + tmp g i) % P.w = k := by
  have wide := P.w_pos
  have enough : tmp g i ≤ k + P.w * (tmp g i / P.w + 1) := by
    have split := Nat.div_add_mod (tmp g i) P.w
    have rest := Nat.mod_lt (tmp g i) wide
    rw [Nat.mul_add, Nat.mul_one]
    omega
  obtain ⟨below, above⟩ := @bisect_spec P (tmp g i) k (tmp g i / P.w + 1) 0 (tmp g i / P.w + 1) (by omega)
    (Nat.zero_le _) (fun m hm => absurd hm (Nat.not_lt_zero m)) enough
  have unfolded : calHash P g i k =
      k + P.w * bisect P (tmp g i) k (tmp g i / P.w + 1) 0 (tmp g i / P.w + 1) - tmp g i := rfl
  rw [unfolded]
  generalize bisect P (tmp g i) k (tmp g i / P.w + 1) 0 (tmp g i / P.w + 1) = l at below above
  constructor
  · cases l with
    | zero => omega
    | succ l =>
        have before := below l (Nat.lt_succ_self l)
        rw [Nat.mul_add, Nat.mul_one]
        omega
  · rw [Nat.sub_add_cancel above, Nat.add_mul_mod_self_left, Nat.mod_eq_of_lt low]

/-- The number of a node comes back from its row. -/
theorem calHash_eq {a : Mapnode} (valid : Valid P a) (i : Nat) : calHash P a.g i (poses P a i) = a.h := by
  obtain ⟨low, row⟩ := @calHash_spec P a.g i (poses P a i) (Nat.mod_lt _ P.w_pos)
  have rows : calHash P a.g i (poses P a i) ≡ a.h [MOD P.w] := Nat.ModEq.add_right_cancel' (tmp a.g i) row
  exact Nat.ModEq.eq_of_lt_of_lt rows low valid.1

/-- The rows of two nodes with one fingerprint differ. -/
theorem row_inj {a b : Node P} {i : Nat} (g : a.1.g = b.1.g) (row : poses P a.1 i = poses P b.1 i) : a = b := by
  have h : a.1.h = b.1.h := by rw [← calHash_eq a.2 i, row, g, calHash_eq b.2 i]
  obtain ⟨⟨ha, ga⟩, va⟩ := a
  obtain ⟨⟨hb, gb⟩, vb⟩ := b
  cases g
  cases h
  rfl

end CalHash

section Candidates

variable {a b : Mapnode} {q : Candidate}

/-- The place of an edge at two places of the number sequences. -/
def spot (P : Params) (a b : Mapnode) (i1 i2 : Nat) : Candidate := ⟨poses P a i1 * P.w + poses P b i2, i1, i2⟩

theorem mem_candidates (hq : q ∈ candidates P a b) : ∃ i1 < P.r, ∃ i2 < P.r, q = spot P a b i1 i2 := by
  obtain ⟨i, -, rfl⟩ := List.mem_map.mp hq
  have square : 0 < P.r * P.r := Nat.mul_pos P.r_pos P.r_pos
  exact ⟨_, Nat.div_lt_of_lt_mul (Nat.mod_lt _ square), _, Nat.mod_lt _ P.r_pos, rfl⟩

theorem candidates_ne_nil (a b : Mapnode) : candidates P a b ≠ [] := by
  have some := P.p_pos
  simp [candidates]
  omega

theorem spot_places (a b : Mapnode) {i1 i2 : Nat} (low : i2 < P.r) : (spot P a b i1 i2).places P = i1 * 2 ^ P.halfR + i2 := by
  have fits := low.trans_le P.r_le
  rw [Candidate.places, spot, ← Nat.shiftLeft_add_eq_or_of_lt fits, Nat.shiftLeft_eq]

theorem spot_places_lt (a b : Mapnode) {i1 i2 : Nat} (low : i1 < P.r) (low' : i2 < P.r) :
    (spot P a b i1 i2).places P < 2 ^ rfnum P := by
  have fits := low.trans_le P.r_le
  have fits' := low'.trans_le P.r_le
  rw [spot_places a b low', rfnum, Nat.two_mul, Nat.pow_add]
  calc i1 * 2 ^ P.halfR + i2 < (i1 + 1) * 2 ^ P.halfR := by rw [Nat.add_mul, Nat.one_mul]; omega
    _ ≤ 2 ^ P.halfR * 2 ^ P.halfR := Nat.mul_le_mul_right _ fits

/-- Row and column of a place. -/
theorem pos_inj {p1 p2 p1' p2' : Nat} (h2 : p2 < P.w) (h2' : p2' < P.w) (same : p1 * P.w + p2 = p1' * P.w + p2') :
    p1 = p1' ∧ p2 = p2' := by
  have wide := P.w_pos
  have rows := congrArg (· / P.w) same
  have columns := congrArg (· % P.w) same
  simp only [Nat.mul_comm _ P.w, Nat.mul_add_div wide, Nat.div_eq_of_lt h2, Nat.div_eq_of_lt h2', Nat.add_zero] at rows
  simp only [Nat.mul_comm _ P.w, Nat.mul_add_mod, Nat.mod_eq_of_lt h2, Nat.mod_eq_of_lt h2'] at columns
  exact ⟨rows, columns⟩

end Candidates

section Route

/-- What is left of the fingerprints on a level. -/
def srcLeft (g1 level : Nat) : Nat := g1 >>> (level >>> 1)

def dstLeft (g2 level : Nat) : Nat := g2 >>> (level >>> 1 + (level &&& 1))

/-- Which way an edge goes from a level to the next. -/
def way (g1 g2 level : Nat) : Bool := if level &&& 1 = 1 then g1.testBit (level >>> 1) else g2.testBit (level >>> 1)

/-- The way over `n` levels. -/
def route (g1 g2 level n : Nat) : List Bool := (List.range' level n).map (way g1 g2)

variable {g1 g2 g1' g2' level n : Nat}

theorem level_succ (level : Nat) : (level &&& 1 = 1 ∧ (level + 1) &&& 1 = 0 ∧ (level + 1) >>> 1 = level >>> 1 + 1) ∨
    (level &&& 1 = 0 ∧ (level + 1) &&& 1 = 1 ∧ (level + 1) >>> 1 = level >>> 1) := by
  simp only [Nat.and_one_is_mod, Nat.shiftRight_one]
  omega

theorem turn_eq (g1 g2 level : Nat) : turn level (srcLeft g1 level) (dstLeft g2 level) =
    (way g1 g2 level, srcLeft g1 (level + 1), dstLeft g2 (level + 1)) := by
  rcases level_succ level with ⟨odd, even, half⟩ | ⟨even, odd, half⟩
  · simp [turn, way, srcLeft, dstLeft, odd, even, half, Nat.shiftRight_add]
  · simp [turn, way, srcLeft, dstLeft, odd, even, half, Nat.shiftRight_add]

theorem route_succ : route g1 g2 level (n + 1) = way g1 g2 level :: route g1 g2 (level + 1) n := rfl

theorem length_route : (route g1 g2 level n).length = n := by simp [route]

/-- The fingerprint of the source comes back. -/
theorem src_eq (same : route g1 g2 0 n = route g1' g2' 0 n) (left : srcLeft g1 n = srcLeft g1' n) : g1 = g1' := by
  apply Nat.eq_of_testBit_eq
  intro i
  by_cases used : 2 * i + 1 < n
  · have here := congrArg (·[2 * i + 1]?) same
    have odd : (2 * i + 1) &&& 1 = 1 := by rw [Nat.and_one_is_mod]; omega
    have half : (2 * i + 1) >>> 1 = i := by rw [Nat.shiftRight_one]; omega
    simpa [route, used, way, odd, half] using here
  · have here := congrArg (Nat.testBit · (i - n >>> 1)) left
    have late : n >>> 1 + (i - n >>> 1) = i := by rw [Nat.shiftRight_one]; omega
    simpa only [srcLeft, Nat.testBit_shiftRight, late] using here

/-- And that of the destination. -/
theorem dst_eq (same : route g1 g2 0 n = route g1' g2' 0 n) (left : dstLeft g2 n = dstLeft g2' n) : g2 = g2' := by
  apply Nat.eq_of_testBit_eq
  intro i
  by_cases used : 2 * i < n
  · have here := congrArg (·[2 * i]?) same
    have even : (2 * i) &&& 1 = 0 := by rw [Nat.and_one_is_mod]; omega
    have half : (2 * i) >>> 1 = i := by rw [Nat.shiftRight_one]; omega
    simpa [route, used, way, even, half] using here
  · have here := congrArg (Nat.testBit · (i - (n >>> 1 + (n &&& 1)))) left
    have late : n >>> 1 + (n &&& 1) + (i - (n >>> 1 + (n &&& 1))) = i := by
      rw [Nat.shiftRight_one, Nat.and_one_is_mod]
      omega
    simpa only [dstLeft, Nat.testBit_shiftRight, late] using here

end Route

/-- What tells the edges in a room of a matrix apart. -/
structure Label where
  places : Nat
  src : Nat
  dst : Nat
  deriving DecidableEq

/-- A room: the way to its matrix, and its place there. -/
abbrev Spot := List Bool × Nat

/-- The levels which can be used. -/
def depth (P : Params) : Nat := 2 * P.f - 1

/-- The label of an edge on a level. -/
def label (P : Params) (a b : Mapnode) (level : Nat) (q : Candidate) : Label :=
  ⟨q.places P, srcLeft a.g level, dstLeft b.g level⟩

/-- The rooms of an edge on a level, in the order in which they are tried. -/
def probesAt (P : Params) (a b : Mapnode) (level : Nat) : List (Spot × Label) :=
  (candidates P a b).map fun q => ((route a.g b.g 0 level, q.pos), label P a b level q)

/-- All rooms of an edge. -/
def probes (P : Params) (e : Node P × Node P) : List (Spot × Label) :=
  (List.range (depth P)).flatMap (probesAt P e.1.1 e.2.1)

theorem mem_probes {e : Node P × Node P} {q : Spot × Label} (hq : q ∈ probes P e) :
    ∃ level < depth P, ∃ i1 < P.r, ∃ i2 < P.r, q = ((route e.1.1.g e.2.1.g 0 level, (spot P e.1.1 e.2.1 i1 i2).pos),
      label P e.1.1 e.2.1 level (spot P e.1.1 e.2.1 i1 i2)) := by
  obtain ⟨level, hl, hq⟩ := List.mem_flatMap.mp hq
  obtain ⟨c, hc, rfl⟩ := List.mem_map.mp hq
  obtain ⟨i1, h1, i2, h2, rfl⟩ := mem_candidates hc
  exact ⟨level, List.mem_range.mp hl, i1, h1, i2, h2, rfl⟩

/-- Two edges with the same label in a room are the same, and so are their places. -/
theorem spot_inj {a b a' b' : Node P} {level level' i1 i2 i1' i2' : Nat} (low : i2 < P.r) (low' : i2' < P.r)
    (way : route a.1.g b.1.g 0 level = route a'.1.g b'.1.g 0 level')
    (pos : (spot P a.1 b.1 i1 i2).pos = (spot P a'.1 b'.1 i1' i2').pos)
    (labels : label P a.1 b.1 level (spot P a.1 b.1 i1 i2) = label P a'.1 b'.1 level' (spot P a'.1 b'.1 i1' i2')) :
    a = a' ∧ b = b' ∧ i1 = i1' ∧ i2 = i2' := by
  obtain rfl : level = level' := by simpa only [length_route] using congrArg List.length way
  obtain ⟨places, src, dst⟩ := Label.mk.inj labels
  rw [spot_places _ _ low, spot_places _ _ low'] at places
  have fits := low.trans_le P.r_le
  have fits' := low'.trans_le P.r_le
  have firsts := congrArg (· / 2 ^ P.halfR) places
  have seconds := congrArg (· % 2 ^ P.halfR) places
  simp only [Nat.mul_comm _ (2 ^ P.halfR), Nat.mul_add_div (Nat.two_pow_pos _), Nat.div_eq_of_lt fits,
    Nat.div_eq_of_lt fits', Nat.add_zero] at firsts
  simp only [Nat.mul_comm _ (2 ^ P.halfR), Nat.mul_add_mod, Nat.mod_eq_of_lt fits, Nat.mod_eq_of_lt fits'] at seconds
  subst firsts seconds
  obtain ⟨rows, columns⟩ := pos_inj (Nat.mod_lt _ P.w_pos) (Nat.mod_lt _ P.w_pos) pos
  exact ⟨row_inj (src_eq way src) rows, row_inj (dst_eq way dst) columns, rfl, rfl⟩

theorem probes_apart : Store.Apart (probes P) := by
  intro q e e' hq hq'
  obtain ⟨level, -, i1, -, i2, h2, rfl⟩ := mem_probes hq
  obtain ⟨level', -, i1', -, i2', h2', same⟩ := mem_probes hq'
  simp only [Prod.mk.injEq] at same
  obtain ⟨⟨way, pos⟩, labels⟩ := same
  obtain ⟨src, dst, -, -⟩ := spot_inj h2 h2' way pos labels
  exact Prod.ext src dst

end CuckooGraph.Auxo
