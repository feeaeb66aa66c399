import CuckooGraph.Auxo.Edges

/-! # The rooms which a node query stops at

A node query goes both ways where a bit of the other node is used up, and only one way
where it is a bit of its own. It stops in the matrices it passes at the rooms which have
what is left of the fingerprint of the node: these are the rooms of its edges, and empty
rooms which look like one of them.
-/

namespace CuckooGraph.Auxo

open Probing BasketNode

variable {P : Params} (type : Bool)

/-- The edge between `a` and `b`, out of `a` or into it. -/
def edge (a b : Node P) : Node P × Node P := if type then (b, a) else (a, b)

/-- What is left of the fingerprint of a node, and how many bits of the other one are used up. -/
def nearLeft (g level : Nat) : Nat := if type then dstLeft g level else srcLeft g level

def used (level : Nat) : Nat := if type then level >>> 1 else level >>> 1 + (level &&& 1)

/-- A room a query stops at, with the bits of the other node on the way there. -/
structure Stop where
  path : List Bool
  pre : Nat
  preLen : Nat
  value : Gbasket
  room : Room

section Walk

variable (P) (a : Gss.Mapnode)

/-- All stops, in the order of the queries. -/
def stops : BasketNode → Nat → Nat → List Bool → Nat → Nat → List Stop
  | .null, _, _, _, _, _ => []
  | .node value next0 next1, level, g1, path, pre, preLen =>
      (rooms P type a level g1 value).map (⟨path, pre, preLen, value, ·⟩) ++
        if chooses type level then
          if g1.testBit 0 then stops next1 (level + 1) (g1 >>> 1) (path ++ [true]) pre preLen
          else stops next0 (level + 1) (g1 >>> 1) (path ++ [false]) pre preLen
        else stops next0 (level + 1) g1 (path ++ [false]) pre (preLen + 1) ++
          stops next1 (level + 1) g1 (path ++ [true]) (pre ||| (1 <<< preLen)) (preLen + 1)

end Walk

/-- The bits of the other node on a way. -/
def collect : Nat → List Bool → Nat → Nat → Nat × Nat
  | _, [], pre, preLen => (pre, preLen)
  | level, way :: path, pre, preLen =>
      if chooses type level then collect (level + 1) path pre preLen
      else collect (level + 1) path (if way then pre ||| (1 <<< preLen) else pre) (preLen + 1)

/-- The way is one of a query for the fingerprint. -/
def Follows (g : Nat) : Nat → List Bool → Prop
  | _, [] => True
  | level, way :: path => (chooses type level = true → way = g.testBit (level >>> 1)) ∧ Follows g (level + 1) path

variable {type} {a : Gss.Mapnode} {t : BasketNode} {g g1 g2 level n pre preLen : Nat} {path : List Bool}

theorem getNodeValue_eq : getNodeValue P type a t level g1 =
    ((stops P type a t level g1 path pre preLen).map fun s => (s.value.weight s.room.pos).setWidth 32).sum := by
  induction t generalizing level g1 path pre preLen with
  | null => rfl
  | node value next0 next1 ih0 ih1 =>
      rw [getNodeValue, stops, List.map_append, List.map_map, List.sum_append]
      congr 1
      split
      · split
        · exact ih1
        · exact ih0
      · rw [List.map_append, List.sum_append]
        exact congrArg₂ _ ih0 ih1

theorem sucessorQuery_eq (here : path.length = level) : sucessorQuery P type a t level g1 pre preLen =
    (stops P type a t level g1 path pre preLen).map fun s =>
      neighbor P type s.path.length s.value s.pre s.preLen s.room := by
  induction t generalizing level g1 path pre preLen with
  | null => rfl
  | node value next0 next1 ih0 ih1 =>
      have next : ∀ way, (path ++ [way]).length = level + 1 := fun way => by
        rw [List.length_append, here, List.length_singleton]
      rw [sucessorQuery, stops, List.map_append, List.map_map]
      congr 1
      · exact List.map_congr_left fun room _ => by rw [Function.comp_apply, here]
      · split
        · split
          · exact ih1 (next true)
          · exact ih0 (next false)
        · rw [List.map_append]
          exact congrArg₂ _ (ih0 (next false)) (ih1 (next true))

/-- What is left on the next level. -/
theorem nearLeft_succ : nearLeft type g (level + 1) =
    if chooses type level then nearLeft type g level >>> 1 else nearLeft type g level := by
  rcases level_succ level with ⟨odd, even, half⟩ | ⟨even, odd, half⟩
  · cases type <;> simp [nearLeft, chooses, srcLeft, dstLeft, odd, even, half, Nat.shiftRight_add]
  · cases type <;> simp [nearLeft, chooses, srcLeft, dstLeft, odd, even, half, Nat.shiftRight_add]

theorem nearLeft_bit (mine : chooses type level = true) : (nearLeft type g level).testBit 0 = g.testBit (level >>> 1) := by
  cases type with
  | true =>
      have even : level &&& 1 = 0 := by
        have rest := Nat.and_one_is_mod level
        have odd : ¬ level &&& 1 = 1 := by simpa [chooses] using mine
        omega
      simp [nearLeft, dstLeft, even]
  | false => simp [nearLeft, srcLeft]

/-- The stops of a query: the matrices on the ways for the fingerprint, and their rooms. -/
theorem mem_stops {s : Stop} (here : path.length = level) :
    s ∈ stops P type a t level (nearLeft type g level) path pre preLen ↔
      ∃ rest, s.path = path ++ rest ∧ (s.pre, s.preLen) = collect type level rest pre preLen ∧
        t.matrix rest = some s.value ∧ Follows type g level rest ∧
        s.room ∈ rooms P type a s.path.length (nearLeft type g s.path.length) s.value := by
  induction t generalizing level path pre preLen with
  | null => simp [stops, matrix_null]
  | node value next0 next1 ih0 ih1 =>
      have next : ∀ way, (path ++ [way]).length = level + 1 := fun way => by
        rw [List.length_append, here, List.length_singleton]
      have later : ∀ way : Bool, ∀ {rest : List Bool}, s.path = path ++ [way] ++ rest ↔ s.path = path ++ way :: rest :=
        fun way rest => by rw [List.append_assoc, List.singleton_append]
      -- the stops in this matrix
      have first : s ∈ (rooms P type a level (nearLeft type g level) value).map (⟨path, pre, preLen, value, ·⟩) ↔
          s.path = path ++ [] ∧ (s.pre, s.preLen) = collect type level [] pre preLen ∧ some value = some s.value ∧
            s.room ∈ rooms P type a s.path.length (nearLeft type g s.path.length) s.value := by
        rw [List.mem_map, List.append_nil]
        constructor
        · rintro ⟨room, stop, rfl⟩
          refine ⟨rfl, rfl, rfl, ?_⟩
          rwa [here]
        · rintro ⟨paths, pres, values, stop⟩
          obtain ⟨rfl, rfl⟩ := Prod.mk.inj pres
          obtain rfl := Option.some.inj values
          rw [paths, here] at stop
          refine ⟨s.room, stop, ?_⟩
          cases s
          simp_all
      rw [stops, List.mem_append, first]
      constructor
      · rintro (⟨paths, pres, values, stop⟩ | deeper)
        · exact ⟨[], paths, pres, values, trivial, stop⟩
        · by_cases mine : chooses type level = true
          · rw [if_pos mine, nearLeft_bit mine] at deeper
            have left : nearLeft type g level >>> 1 = nearLeft type g (level + 1) := by rw [nearLeft_succ, if_pos mine]
            rw [left] at deeper
            cases bit : g.testBit (level >>> 1) with
            | true =>
                rw [bit, if_pos rfl, ih1 (next true)] at deeper
                obtain ⟨rest, paths, pres, there, follows, stop⟩ := deeper
                refine ⟨true :: rest, (later true).mp paths, ?_, there, ⟨fun _ => bit.symm, follows⟩, stop⟩
                rw [collect, if_pos mine, pres]
            | false =>
                rw [bit, if_neg (by simp), ih0 (next false)] at deeper
                obtain ⟨rest, paths, pres, there, follows, stop⟩ := deeper
                refine ⟨false :: rest, (later false).mp paths, ?_, there, ⟨fun _ => bit.symm, follows⟩, stop⟩
                rw [collect, if_pos mine, pres]
          · have left : nearLeft type g level = nearLeft type g (level + 1) := by rw [nearLeft_succ, if_neg mine]
            rw [if_neg mine, left, List.mem_append, ih0 (next false), ih1 (next true)] at deeper
            rcases deeper with ⟨rest, paths, pres, there, follows, stop⟩ | ⟨rest, paths, pres, there, follows, stop⟩
            · refine ⟨false :: rest, (later false).mp paths, ?_, there, ⟨fun chosen => absurd chosen mine, follows⟩, stop⟩
              rw [collect, if_neg mine, pres]
              rfl
            · refine ⟨true :: rest, (later true).mp paths, ?_, there, ⟨fun chosen => absurd chosen mine, follows⟩, stop⟩
              rw [collect, if_neg mine, pres]
              rfl
      · rintro ⟨rest, paths, pres, there, follows, stop⟩
        cases rest with
        | nil => exact .inl ⟨paths, pres, there, stop⟩
        | cons way rest =>
            right
            obtain ⟨chosen, follows⟩ := follows
            by_cases mine : chooses type level = true
            · have left : nearLeft type g level >>> 1 = nearLeft type g (level + 1) := by rw [nearLeft_succ, if_pos mine]
              rw [collect, if_pos mine] at pres
              rw [if_pos mine, nearLeft_bit mine, left, ← chosen mine]
              cases way with
              | true =>
                  rw [if_pos rfl, ih1 (next true)]
                  exact ⟨rest, (later true).mpr paths, pres, there, follows, stop⟩
              | false =>
                  rw [if_neg (by simp), ih0 (next false)]
                  exact ⟨rest, (later false).mpr paths, pres, there, follows, stop⟩
            · have left : nearLeft type g level = nearLeft type g (level + 1) := by rw [nearLeft_succ, if_neg mine]
              rw [collect, if_neg mine] at pres
              rw [if_neg mine, left, List.mem_append, ih0 (next false), ih1 (next true)]
              cases way with
              | true => exact .inr ⟨rest, (later true).mpr paths, pres, there, follows, stop⟩
              | false => exact .inl ⟨rest, (later false).mpr paths, pres, there, follows, stop⟩

section Bits

/-- One more bit of a number. -/
theorem mod_succ (g n : Nat) : g % 2 ^ (n + 1) = if g.testBit n then g % 2 ^ n ||| 1 <<< n else g % 2 ^ n := by
  apply Nat.eq_of_testBit_eq
  intro i
  have bits : ∀ m, (g % 2 ^ m).testBit i = (decide (i < m) && g.testBit i) := fun m => Nat.testBit_mod_two_pow g m i
  have one : (1 <<< n).testBit i = decide (n = i) := by rw [Nat.one_shiftLeft, Nat.testBit_two_pow]
  by_cases here : i = n
  · subst here
    cases bit : g.testBit i <;> simp [bits, one, bit]
  · have order : i ≤ n ↔ i < n := by omega
    have other : ¬ n = i := fun same => here same.symm
    cases bit : g.testBit n <;> simp [bits, one, order, other]

/-- What is left of a number and what is used up of it. -/
theorem left_or_used (g u : Nat) : ((g >>> u) <<< u) ||| g % 2 ^ u = g := by
  apply Nat.eq_of_testBit_eq
  intro i
  rw [Nat.testBit_or, Nat.testBit_shiftLeft, Nat.testBit_shiftRight, Nat.testBit_mod_two_pow]
  by_cases low : i < u
  · have late : ¬ u ≤ i := by omega
    simp [low, late]
  · have late : u ≤ i := by omega
    simp [low, late, Nat.add_sub_cancel' late]

end Bits

/-- The fingerprint of the other node. -/
def farFig (type : Bool) (g1 g2 : Nat) : Nat := if type then g1 else g2

theorem used_succ : used type (level + 1) = if chooses type level then used type level else used type level + 1 := by
  rcases level_succ level with ⟨odd, even, half⟩ | ⟨even, odd, half⟩
  · cases type <;> simp [used, chooses, odd, even, half]
  · cases type <;> simp [used, chooses, odd, even, half]

theorem way_far (other : ¬ chooses type level = true) : way g1 g2 level = (farFig type g1 g2).testBit (used type level) := by
  cases type with
  | true =>
      have odd : level &&& 1 = 1 := by simpa [chooses] using other
      simp [way, farFig, used, odd]
  | false =>
      have even : level &&& 1 = 0 := by
        have rest := Nat.and_one_is_mod level
        have odd : ¬ level &&& 1 = 1 := by simpa [chooses] using other
        omega
      simp [way, farFig, used, even]

/-- The bits collected on the route of an edge are those of the other node. -/
theorem collect_route : collect type level (route g1 g2 level n) (farFig type g1 g2 % 2 ^ used type level) (used type level) =
    (farFig type g1 g2 % 2 ^ used type (level + n), used type (level + n)) := by
  induction n generalizing level with
  | zero => rfl
  | succ n ih =>
      have shift : level + (n + 1) = level + 1 + n := by omega
      rw [route_succ, collect, shift, ← ih, used_succ]
      by_cases mine : chooses type level = true
      · rw [if_pos mine, if_pos mine]
      · rw [if_neg mine, if_neg mine, way_far mine, ← mod_succ]

theorem chooses_iff : chooses type level = true ↔ if type then level % 2 = 0 else level % 2 = 1 := by
  cases type <;> simp [chooses]

theorem way_odd (odd : level % 2 = 1) : way g1 g2 level = g1.testBit (level >>> 1) := by simp [way, odd]

theorem way_even (even : level % 2 = 0) : way g1 g2 level = g2.testBit (level >>> 1) := by simp [way, even]

/-- A route which follows a fingerprint is one of an edge with this fingerprint. -/
theorem follows_route (follows : Follows type g level (route g1 g2 level n)) :
    route g1 g2 level n = if type then route g1 g level n else route g g2 level n := by
  induction n generalizing level with
  | zero => cases type <;> rfl
  | succ n ih =>
      rw [route_succ] at follows
      obtain ⟨chosen, follows⟩ := follows
      have rest := ih follows
      rw [chooses_iff] at chosen
      rcases Nat.mod_two_eq_zero_or_one level with even | odd
      · rw [way_even even] at chosen
        cases type with
        | true => exact congrArg₂ List.cons (by rw [way_even even, way_even even, chosen even]) rest
        | false => exact congrArg₂ List.cons (by rw [way_even even, way_even even]) rest
      · rw [way_odd odd] at chosen
        cases type with
        | true => exact congrArg₂ List.cons (by rw [way_odd odd, way_odd odd]) rest
        | false => exact congrArg₂ List.cons (by rw [way_odd odd, way_odd odd, chosen odd]) rest

/-- The routes of the edges of a node follow its fingerprint. -/
theorem route_follows : Follows type g level (if type then route g1 g level n else route g g2 level n) := by
  induction n generalizing level with
  | zero => cases type <;> trivial
  | succ n ih =>
      have rest := @ih (level + 1)
      cases type with
      | true => exact ⟨fun chosen => way_even (chooses_iff.mp chosen), rest⟩
      | false => exact ⟨fun chosen => way_odd (chooses_iff.mp chosen), rest⟩

end CuckooGraph.Auxo
