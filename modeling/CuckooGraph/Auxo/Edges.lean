import CuckooGraph.Auxo.Rooms

/-! # The sketch as a sum for each compressed edge

An edge is tried in the matrices on its route one after the other. A matrix which does
not exist counts as empty, and as its first place would do, no way is tried beyond the
first such matrix, so that the tree grows by one level at most. An edge query returns the
sum, as an `unsigned short`, of the weights of all items with the same compressed edge.
-/

namespace CuckooGraph.Auxo

open Probing BasketNode

variable {P : Params} {t : BasketNode} {st : Store (Node P × Node P) Spot Label (BitVec 16)} {a b : Node P}

/-- The matrix on a level of the route of an edge. -/
abbrev matrixAt (t : BasketNode) (a b : Node P) (level : Nat) : Option Gbasket := t.matrix (route a.1.g b.1.g 0 level)

/-- The room has the label of the edge. -/
abbrev holdsAt (v : Gbasket) (a b : Node P) (level : Nat) (q : Candidate) : Bool :=
  v.holds P level (srcLeft a.1.g level) (dstLeft b.1.g level) q

/-- The probe of an edge for a place. -/
abbrev probe (a b : Node P) (level : Nat) (q : Candidate) : Spot × Label :=
  ((route a.1.g b.1.g 0 level, q.pos), label P a.1 b.1 level q)

theorem candidate_fits {q : Candidate} (hq : q ∈ candidates P a.1 b.1) : q.places P < 2 ^ rfnum P := by
  obtain ⟨i1, h1, i2, h2, rfl⟩ := mem_candidates hq
  exact spot_places_lt _ _ h1 h2

theorem view_none {level pos : Nat} (absent : matrixAt t a b level = none) :
    view P t (route a.1.g b.1.g 0 level, pos) = none := by
  have here : t.matrix (route a.1.g b.1.g 0 level) = none := absent
  simp only [view, here, Option.bind_none]

theorem view_some {v : Gbasket} {level pos : Nat} (here : matrixAt t a b level = some v) :
    view P t (route a.1.g b.1.g 0 level, pos) = v.cell P level pos := by
  have there : t.matrix (route a.1.g b.1.g 0 level) = some v := here
  simp only [view, there, Option.bind_some, length_route]

theorem accepts_none {level : Nat} (absent : matrixAt t a b level = none) (q : Candidate) :
    accepts (view P t) (probe a b level q) = true := by
  rw [accepts, view_none absent]
  rfl

theorem accepts_some {v : Gbasket} {level : Nat} (here : matrixAt t a b level = some v) (q : Candidate) :
    accepts (view P t) (probe a b level q) = (decide (v.weight q.pos = 0) || holdsAt v a b level q) := by
  rw [accepts, view_some here, Bool.eq_iff_iff, Bool.or_eq_true, decide_eq_true_eq, Gbasket.holds_iff, Gbasket.cell]
  split
  · simp_all
  · simp_all

/-- The end of the probes, as a place on a level. -/
theorem settle_level {cells : Spot → Option (Label × BitVec 16)} {x : Spot × Label}
    (place : settle cells (probes P (a, b)) = some x) : ∃ level < depth P, ∃ q ∈ candidates P a.1 b.1,
      x = probe a b level q ∧
      ((candidates P a.1 b.1).find? fun q => accepts cells (probe a b level q)) = some q ∧
      ∀ l < level, ∀ q ∈ candidates P a.1 b.1, accepts cells (probe a b l q) = false := by
  obtain ⟨level, inside, found, before⟩ := find?_levels place
  rw [probesAt, List.find?_map, Option.map_eq_some_iff] at found
  obtain ⟨q, found, rfl⟩ := found
  refine ⟨level, inside, q, List.mem_of_find?_eq_some found, rfl, found, fun l hl q hq => ?_⟩
  exact before l hl _ (List.mem_map_of_mem hq)

theorem mem_probes_of {level : Nat} (inside : level < depth P) {q : Candidate} (hq : q ∈ candidates P a.1 b.1) :
    probe a b level q ∈ probes P (a, b) :=
  List.mem_flatMap.mpr ⟨level, List.mem_range.mpr inside, List.mem_map_of_mem hq⟩

section Equations

variable {weight : Int} {t' : BasketNode}

theorem place_increase (increased : descend (increase P (candidates P a.1 b.1) weight) t 0 a.1.g b.1.g = some t') :
    place P t a.1 b.1 weight = some (t', true) := by simp only [place, increased]

theorem place_occupy (stay : descend (increase P (candidates P a.1 b.1) weight) t 0 a.1.g b.1.g = none)
    (occupied : descend (fun level _ _ => occupy P (candidates P a.1 b.1) a.1.g b.1.g weight level) t 0 a.1.g b.1.g =
      some t') :
    place P t a.1 b.1 weight = some (t', true) := by simp only [place, stay, occupied]

theorem place_append (stay : descend (increase P (candidates P a.1 b.1) weight) t 0 a.1.g b.1.g = none)
    (full : descend (fun level _ _ => occupy P (candidates P a.1 b.1) a.1.g b.1.g weight level) t 0 a.1.g b.1.g = none) :
    place P t a.1 b.1 weight = append P (candidates P a.1 b.1) a.1.g b.1.g weight t 0 a.1.g b.1.g := by
  simp only [place, stay, full]

end Equations

namespace Models

/-- A room which has the edge is where its probes end. -/
theorem settle_of_holds {v : Gbasket} {level : Nat} {q : Candidate} (models : Models t st)
    (settled : st.Settled (probes P)) (here : matrixAt t a b level = some v) (hq : q ∈ candidates P a.1 b.1)
    (full : v.weight q.pos ≠ 0) (mine : holdsAt v a b level q = true) :
    settle st.cells (probes P (a, b)) = some (probe a b level q) ∧ st.value (probes P) (a, b) = some (v.weight q.pos) := by
  have inside : level < depth P := by
    have low := models.low _ _ here
    rwa [length_route] at low
  have cell : st.cells (route a.1.g b.1.g 0 level, q.pos) = some (label P a.1 b.1 level q, v.weight q.pos) := by
    rw [← models.cells, view_some here]
    exact Gbasket.cell_eq_some.mpr ⟨full, mine, rfl⟩
  have hp := mem_probes_of inside hq
  exact ⟨settled.settle_eq probes_apart hp cell, (settled.value_eq_some probes_apart).mpr (.inl ⟨_, hp, cell⟩)⟩

/-- What is in the table after the weight of an edge has been added in its room. -/
theorem update (models : Models t st) {t' : BasketNode} {level : Nat} {q : Candidate} {w : BitVec 16}
    (ends : settle st.cells (probes P (a, b)) = some (probe a b level q))
    (others : ∀ path, path ≠ route a.1.g b.1.g 0 level → ∀ pos, view P t' (path, pos) = view P t (path, pos))
    (here : ∀ pos, view P t' (route a.1.g b.1.g 0 level, pos) =
      if pos = q.pos then some (label P a.1 b.1 level q, (st.value (probes P) (a, b)).getD 0 + w)
      else view P t (route a.1.g b.1.g 0 level, pos))
    (fresh : ∀ path v, t'.matrix path = some v → v.Fresh P path.length) (full : t'.Full)
    (low : ∀ path v, t'.matrix path = some v → path.length < depth P) (root : t' ≠ .null) :
    Models t' (st.add (probes P) (a, b) w) := by
  have value : st.value (probes P) (a, b) = (st.cells (route a.1.g b.1.g 0 level, q.pos)).map Prod.snd := by
    rw [Store.value, ends]
  have cells : (st.add (probes P) (a, b) w).cells = Function.update st.cells (route a.1.g b.1.g 0 level, q.pos)
      (some (label P a.1 b.1 level q, (st.value (probes P) (a, b)).getD 0 + w)) := by
    rw [value, Store.add, ends]
  have spilled : (st.add (probes P) (a, b) w).spilled = st.spilled := by rw [Store.add, ends]
  refine ⟨?_, fresh, full, low, root, fun e => by rw [spilled, models.spilled]⟩
  rw [cells]
  funext ⟨path, pos⟩
  by_cases mine : path = route a.1.g b.1.g 0 level
  · subst mine
    rw [here, models.cells]
    by_cases there : pos = q.pos
    · subst there
      rw [if_pos rfl, Function.update_self]
    · have other : (route a.1.g b.1.g 0 level, pos) ≠ (route a.1.g b.1.g 0 level, q.pos) :=
        fun same => there (congrArg Prod.snd same)
      rw [if_neg there, Function.update_of_ne other]
  · have other : (path, pos) ≠ (route a.1.g b.1.g 0 level, q.pos) := fun same => mine (congrArg Prod.fst same)
    rw [others path mine, models.cells, Function.update_of_ne other]

/-- A matrix on the route is exchanged. -/
theorem exchange (models : Models t st) {t' : BasketNode} {level : Nat} {q : Candidate} {w : BitVec 16} {v v' : Gbasket}
    (ends : settle st.cells (probes P (a, b)) = some (probe a b level q)) (old : matrixAt t a b level = some v)
    (all : ∀ path, t'.matrix path = if path = route a.1.g b.1.g 0 level then some v' else t.matrix path)
    (cells : ∀ pos, v'.cell P level pos = if pos = q.pos then
      some (label P a.1 b.1 level q, (st.value (probes P) (a, b)).getD 0 + w) else v.cell P level pos)
    (fresh : v'.Fresh P level) (full : t'.Full) (root : t'.isNull = t.isNull) :
    Models t' (st.add (probes P) (a, b) w) := by
  have new : matrixAt t' a b level = some v' := by
    have here := all (route a.1.g b.1.g 0 level)
    rwa [if_pos rfl] at here
  refine models.update ends (fun path other pos => ?_) (fun pos => ?_) (fun path u there => ?_) full
    (fun path u there => ?_) fun null => ?_
  · rw [view, view, all, if_neg other]
  · rw [view_some new, view_some old, cells]
  · rw [all] at there
    split at there
    · rename_i mine
      obtain rfl := Option.some.inj there
      rwa [mine, length_route]
    · exact models.fresh path u there
  · rw [all] at there
    split at there
    · rename_i mine
      rw [mine]
      exact models.low _ _ old
    · exact models.low path u there
  · rw [null] at root
    exact models.root (isNull_iff.mp root.symm)

/-- No room has the edge, if it is not where its probes end. -/
theorem increase_none (weight : Int) (absent : ∀ level v, matrixAt t a b level = some v → ∀ q ∈ candidates P a.1 b.1,
    v.weight q.pos ≠ 0 → holdsAt v a b level q = false) :
    descend (increase P (candidates P a.1 b.1) weight) t 0 a.1.g b.1.g = none := by
  refine @descend_none t a.1.g b.1.g 0 _ fun m u here => ?_
  rw [increase, Nat.zero_add, Option.map_eq_none_iff, List.find?_eq_none]
  intro q hq
  by_cases empty : u.weight q.pos = 0
  · simp [empty]
  · have other := absent m u here q hq empty
    simp [other]

/-- No room is empty. -/
theorem occupy_none (weight : Int) (taken : ∀ level v, matrixAt t a b level = some v → ∀ q ∈ candidates P a.1 b.1,
    v.weight q.pos ≠ 0) :
    descend (fun level _ _ => occupy P (candidates P a.1 b.1) a.1.g b.1.g weight level) t 0 a.1.g b.1.g = none := by
  refine @descend_none t a.1.g b.1.g 0 _ fun m u here => ?_
  rw [Nat.zero_add, occupy, Option.map_eq_none_iff, List.find?_eq_none]
  intro q hq
  simpa using taken m u here q hq

/-- Where the probes end at an empty room, no room has the edge. -/
theorem absent (models : Models t st) (settled : st.Settled (probes P)) {level : Nat} {q : Candidate}
    (ends : settle st.cells (probes P (a, b)) = some (probe a b level q))
    (empty : view P t (route a.1.g b.1.g 0 level, q.pos) = none) (l : Nat) (v : Gbasket) (there : matrixAt t a b l = some v)
    (q' : Candidate) (hq : q' ∈ candidates P a.1 b.1) (full : v.weight q'.pos ≠ 0) : holdsAt v a b l q' = false := by
  by_contra mine
  have mine : holdsAt v a b l q' = true := by simpa using mine
  obtain ⟨place, -⟩ := models.settle_of_holds settled there hq full mine
  have same := Option.some.inj (ends.symm.trans place)
  have spot : (route a.1.g b.1.g 0 level, q.pos) = (route a.1.g b.1.g 0 l, q'.pos) := congrArg Prod.fst same
  rw [spot, view_some there, Gbasket.cell_eq_none] at empty
  exact full empty

/-- The matrices before the end of the probes exist, and all places of the edge there are taken. -/
theorem taken (models : Models t st) {level : Nat}
    (before : ∀ l < level, ∀ q ∈ candidates P a.1 b.1, accepts st.cells (probe a b l q) = false) (l : Nat) (hl : l < level) :
    ∃ v, matrixAt t a b l = some v ∧ ∀ q ∈ candidates P a.1 b.1, v.weight q.pos ≠ 0 ∧ holdsAt v a b l q = false := by
  cases here : matrixAt t a b l with
  | none =>
      obtain ⟨q, rest, all⟩ := List.exists_cons_of_ne_nil (candidates_ne_nil a.1 b.1)
      have fails := before l hl q (all ▸ List.mem_cons_self)
      rw [← models.cells, accepts_none here] at fails
      cases fails
  | some v =>
      refine ⟨v, rfl, fun q hq => ?_⟩
      have fails := before l hl q hq
      rw [← models.cells, accepts_some here, Bool.or_eq_false_iff, decide_eq_false_iff_not] at fails
      exact fails

/-- The room is there, and the weight is added or written in it. -/
theorem place_here (models : Models t st) (settled : st.Settled (probes P)) {level : Nat} {q : Candidate} {v : Gbasket}
    {weight : Int} (hq : q ∈ candidates P a.1 b.1) (ends : settle st.cells (probes P (a, b)) = some (probe a b level q))
    (found : ((candidates P a.1 b.1).find? fun q => accepts st.cells (probe a b level q)) = some q)
    (before : ∀ l < level, ∀ q ∈ candidates P a.1 b.1, accepts st.cells (probe a b l q) = false)
    (here : matrixAt t a b level = some v) (nonzero : (st.value (probes P) (a, b)).getD 0 + BitVec.ofInt 16 weight ≠ 0) :
    ∃ t', place P t a.1 b.1 weight = some (t', true) ∧ Models t' (st.add (probes P) (a, b) (BitVec.ofInt 16 weight)) := by
  have inside : level < depth P := by
    have low := models.low _ _ here
    rwa [length_route] at low
  have fresh : v.Fresh P level := by
    have fresh := models.fresh _ _ here
    rwa [length_route] at fresh
  have accepted : ∀ q', accepts st.cells (probe a b level q') =
      (decide (v.weight q'.pos = 0) || holdsAt v a b level q') := fun q' => by rw [← models.cells, accepts_some here]
  have stored : st.value (probes P) (a, b) = (v.cell P level q.pos).map Prod.snd := by
    have cell : st.cells (route a.1.g b.1.g 0 level, q.pos) = v.cell P level q.pos := by
      rw [← models.cells, view_some here]
    rw [Store.value, ends, ← cell]
  by_cases empty : v.weight q.pos = 0
  · have stay := increase_none weight (models.absent settled ends ((view_some here).trans (Gbasket.cell_eq_none.mpr empty)))
    have zero : st.value (probes P) (a, b) = none := by rw [stored, Gbasket.cell_eq_none.mpr empty, Option.map_none]
    rw [zero, Option.getD_none, zero_add] at nonzero
    obtain ⟨src, dst⟩ := shift_eq inside
    have first : (candidates P a.1 b.1).find? (fun q => decide (v.weight q.pos = 0)) = some q :=
      find?_stronger found (decide_eq_true empty) fun q' _ zero => by rw [accepted, zero, Bool.true_or]
    have done : occupy P (candidates P a.1 b.1) a.1.g b.1.g weight level v =
        some (v.write P level (srcLeft a.1.g level) (dstLeft b.1.g level) weight q) := by
      rw [occupy, first, Option.map_some, src, dst, srcLeft, dstLeft]
    obtain ⟨cells, fresh'⟩ := Gbasket.cell_write inside fresh empty (candidate_fits hq) nonzero
    obtain ⟨t', occupied, root, all, full⟩ := @descend_eq t a.1.g b.1.g 0 level
      (fun level _ _ => occupy P (candidates P a.1 b.1) a.1.g b.1.g weight level) v _ here
      (by rw [Nat.zero_add]; exact done) fun m hm u there => by
        obtain ⟨u', there', full⟩ := models.taken before m hm
        obtain rfl := Option.some.inj (there.symm.trans there')
        rw [Nat.zero_add, occupy, Option.map_eq_none_iff, List.find?_eq_none]
        intro q hq
        simpa using (full q hq).1
    refine ⟨t', ?_, models.exchange ends here all (fun pos => ?_) fresh' (full models.full) root⟩
    · exact place_occupy stay occupied
    · rw [cells, zero, Option.getD_none, zero_add]
  · have mine : holdsAt v a b level q = true := by
      have ok := accepted q
      rw [List.find?_some found, decide_eq_false empty, Bool.false_or] at ok
      exact ok.symm
    have cell := Gbasket.cell_eq_some.mpr ⟨empty, mine, rfl⟩
    rw [cell, Option.map_some] at stored
    rw [stored, Option.getD_some] at nonzero
    have first : (candidates P a.1 b.1).find? (fun q => v.weight q.pos ≠ 0 && holdsAt v a b level q) = some q := by
      apply find?_stronger found
      · exact Bool.and_eq_true_iff.mpr ⟨decide_eq_true empty, mine⟩
      · intro q' _ both
        rw [accepted, (Bool.and_eq_true_iff.mp both).2, Bool.or_true]
    have done : increase P (candidates P a.1 b.1) weight level (srcLeft a.1.g level) (dstLeft b.1.g level) v =
        some (v.bump weight q) := by rw [increase, first, Option.map_some]
    obtain ⟨cells, fresh'⟩ := Gbasket.cell_bump fresh mine nonzero
    obtain ⟨t', increased, root, all, full⟩ := @descend_eq t a.1.g b.1.g 0 level
      (increase P (candidates P a.1 b.1) weight) v _ here (by rw [Nat.zero_add]; exact done) fun m hm u there => by
        obtain ⟨u', there', full⟩ := models.taken before m hm
        obtain rfl := Option.some.inj (there.symm.trans there')
        rw [Nat.zero_add, increase, Option.map_eq_none_iff, List.find?_eq_none]
        intro q hq
        have other := (full q hq).2
        simp [other]
    refine ⟨t', place_increase increased, models.exchange ends here all (fun pos => ?_) fresh' (full models.full) root⟩
    rw [cells, stored, Option.getD_some]

/-- The first matrix which is missing is made. -/
theorem place_beyond (models : Models t st) (settled : st.Settled (probes P)) {level : Nat} {q : Candidate}
    {weight : Int} (ends : settle st.cells (probes P (a, b)) = some (probe a b level q)) (inside : level < depth P)
    (found : ((candidates P a.1 b.1).find? fun q => accepts st.cells (probe a b level q)) = some q)
    (before : ∀ l < level, ∀ q ∈ candidates P a.1 b.1, accepts st.cells (probe a b l q) = false)
    (missing : matrixAt t a b level = none)
    (nonzero : (st.value (probes P) (a, b)).getD 0 + BitVec.ofInt 16 weight ≠ 0) :
    ∃ t', place P t a.1 b.1 weight = some (t', true) ∧ Models t' (st.add (probes P) (a, b) (BitVec.ofInt 16 weight)) := by
  have stay := increase_none weight (models.absent settled ends (view_none missing))
  have zero : st.value (probes P) (a, b) = none := by
    have cell : st.cells (route a.1.g b.1.g 0 level, q.pos) = none := by rw [← models.cells, view_none missing]
    rw [Store.value, ends]
    exact congrArg (Option.map Prod.snd) cell
  rw [zero, Option.getD_none, zero_add] at nonzero
  have near : ∀ l v, matrixAt t a b l = some v → l < level := by
    intro l v there
    by_contra far
    have gone : matrixAt t a b l = none := matrix_route_none missing (Nat.le_of_not_lt far)
    rw [gone] at there
    cases there
  have full := occupy_none weight fun l v there q hq => by
    obtain ⟨v', there', full⟩ := models.taken before l (near l v there)
    obtain rfl := Option.some.inj (there.symm.trans there')
    exact (full q hq).1
  have first : ∃ rest, candidates P a.1 b.1 = q :: rest := by
    obtain ⟨c, rest, all⟩ := List.exists_cons_of_ne_nil (candidates_ne_nil a.1 b.1)
    have hit : accepts st.cells (probe a b level c) = true := by rw [← models.cells, accepts_none missing]
    rw [all, List.find?_cons, hit] at found
    exact ⟨rest, by rw [all, Option.some.inj found]⟩
  obtain ⟨rest, all⟩ := first
  cases level with
  | zero => exact absurd (matrix_nil.mp missing) models.root
  | succ l =>
      obtain ⟨v, here, -⟩ := models.taken before l (Nat.lt_succ_self l)
      have mine : q ∈ candidates P a.1 b.1 := all ▸ List.mem_cons_self
      rcases @append_eq P t a.1.g b.1.g 0 l weight v q rest here missing models.full (by omega) with
        ⟨-, deep⟩ | ⟨t', done, -, root, full', matrices⟩
      · exact absurd inside (by simpa using deep)
      · rw [Nat.zero_add] at matrices
        obtain ⟨cells, fresh⟩ :=
          Gbasket.cell_write (a := a) (b := b) inside Gbasket.fresh_blank rfl (candidate_fits mine) nonzero
        have other : t.matrix (route a.1.g b.1.g 0 l ++ [!way a.1.g b.1.g l]) = none := by
          apply models.full.sibling here
          have step := @route_add a.1.g b.1.g 0 l 1
          rw [Nat.zero_add] at step
          exact step ▸ missing
        have new : matrixAt t' a b (l + 1) =
            some (blank.write P (l + 1) (srcLeft a.1.g (l + 1)) (dstLeft b.1.g (l + 1)) weight q) := by
          have there := matrices (route a.1.g b.1.g 0 (l + 1))
          rwa [if_pos rfl] at there
        refine ⟨t', by rw [place_append stay full, all]; exact done, ?_⟩
        refine models.update ends (fun path apart pos => ?_) (fun pos => ?_) (fun path u there => ?_) full'
          (fun path u there => ?_) fun null => ?_
        · rw [view, view, matrices, if_neg apart]
          by_cases sibling : path = route a.1.g b.1.g 0 l ++ [!way a.1.g b.1.g l]
          · rw [if_pos sibling, sibling, other]
            exact Gbasket.cell_blank
          · rw [if_neg sibling]
        · rw [view_some new, view_none missing, cells, zero, Option.getD_none, zero_add, Gbasket.cell_blank]
        · rw [matrices] at there
          split at there
          · rename_i mine
            obtain rfl := Option.some.inj there
            rwa [mine, length_route]
          · split at there
            · obtain rfl := Option.some.inj there
              exact Gbasket.fresh_blank
            · exact models.fresh path u there
        · rw [matrices] at there
          split at there
          · rename_i mine
            rwa [mine, length_route]
          · split at there
            · rename_i sibling
              rwa [sibling, List.length_append, length_route]
            · exact models.low path u there
        · rw [null] at root
          cases root

/-- An edge comes into the tree as into the table. -/
theorem place_some (models : Models t st) (settled : st.Settled (probes P)) {x : Spot × Label} {weight : Int}
    (ends : settle st.cells (probes P (a, b)) = some x)
    (nonzero : (st.value (probes P) (a, b)).getD 0 + BitVec.ofInt 16 weight ≠ 0) :
    ∃ t', place P t a.1 b.1 weight = some (t', true) ∧ Models t' (st.add (probes P) (a, b) (BitVec.ofInt 16 weight)) := by
  obtain ⟨level, inside, q, hq, rfl, found, before⟩ := settle_level ends
  cases here : matrixAt t a b level with
  | none => exact models.place_beyond settled ends inside found before here nonzero
  | some v => exact models.place_here settled hq ends found before here nonzero

/-- If there is no room in the table, the fingerprints are used up. -/
theorem place_none (models : Models t st) (weight : Int)
    (ends : settle st.cells (probes P (a, b)) = none) : place P t a.1 b.1 weight = none := by
  have fails : ∀ l < depth P, ∀ q ∈ candidates P a.1 b.1, accepts st.cells (probe a b l q) = false := fun l hl q hq =>
    Bool.eq_false_iff.mpr (List.find?_eq_none.mp ends _ (mem_probes_of hl hq))
  have low : ∀ l v, matrixAt t a b l = some v → l < depth P := by
    intro l v there
    have low := models.low _ _ there
    rwa [length_route] at low
  have absent := increase_none weight fun l v there q hq _ => by
    obtain ⟨v', there', full⟩ := models.taken fails l (low l v there)
    obtain rfl := Option.some.inj (there.symm.trans there')
    exact (full q hq).2
  have full := occupy_none weight fun l v there q hq => by
    obtain ⟨v', there', full⟩ := models.taken fails l (low l v there)
    obtain rfl := Option.some.inj (there.symm.trans there')
    exact (full q hq).1
  obtain ⟨q, rest, all⟩ := List.exists_cons_of_ne_nil (candidates_ne_nil a.1 b.1)
  have some := P.f_pos
  obtain ⟨l, last⟩ : ∃ l, depth P = l + 1 := ⟨2 * P.f - 2, by rw [depth]; omega⟩
  obtain ⟨v, here, -⟩ := models.taken fails l (by omega)
  have missing : matrixAt t a b (l + 1) = Option.none := by
    cases there : matrixAt t a b (l + 1) with
    | none => rfl
    | some v => exact absurd (low _ v there) (by omega)
  rw [place_append absent full, all]
  rcases @append_eq P t a.1.g b.1.g 0 l weight v q rest here missing models.full (by omega) with
    ⟨stuck, -⟩ | ⟨t', -, deep, -⟩
  · exact stuck
  · omega

end Models

section Runs

variable {hash : String → UInt64}

/-- The compressed edge of an item and what it adds. -/
def item (P : Params) (hash : String → UInt64) (i : String × String × Int) : (Node P × Node P) × BitVec 16 :=
  ((nodeOf P (hash i.1), nodeOf P (hash i.2.1)), BitVec.ofInt 16 i.2.2)

/-- A run of `insert`. -/
def inserts (P : Params) (hash : String → UInt64) (items : List (String × String × Int)) : Option BasketNode :=
  items.foldlM (fun t i => (insert P hash t i.1 i.2.1 i.2.2).map Prod.fst) mainTree

/-- The table of a run. -/
def table (P : Params) (hash : String → UInt64) (items : List (String × String × Int)) :
    Store (Node P × Node P) Spot Label (BitVec 16) :=
  Store.addAll (probes P) (items.map (item P hash))

/-- The sum of the weights of a compressed edge. -/
def total (P : Params) (hash : String → UInt64) (items : List (String × String × Int)) (e : Node P × Node P) : BitVec 16 :=
  ((items.filter fun i => (item P hash i).1 = e).map fun i => (item P hash i).2).sum

/-- No sum of an edge in the sketch ever is 0, which would make its room empty. -/
def Nonzero (P : Params) (hash : String → UInt64) (items : List (String × String × Int)) : Prop :=
  ∀ before after, items = before ++ after → ∀ i ∈ before, total P hash before (item P hash i).1 ≠ 0

theorem settled_table (items : List (String × String × Int)) : (table P hash items).Settled (probes P) :=
  Store.Settled.addAll _

/-- What the table has for a compressed edge. -/
theorem table_value (items : List (String × String × Int)) (e : Node P × Node P) :
    ((table P hash items).value (probes P) e).getD 0 = total P hash items e := by
  have value := Store.value_addAll probes_apart (items.map (item P hash)) e
  rw [table, value]
  split
  · simp only [List.filter_map, List.map_map, total, Function.comp_def, Option.getD_some]
  · rename_i absent
    have none : items.filter (fun i => (item P hash i).1 = e) = [] := by
      rw [List.filter_eq_nil_iff]
      intro i hi
      simpa using fun same => absent (List.mem_map.mpr ⟨_, List.mem_map.mpr ⟨i, hi, rfl⟩, same⟩)
    rw [total, none]
    rfl

theorem total_append (items : List (String × String × Int)) (i : String × String × Int) :
    total P hash (items ++ [i]) (item P hash i).1 = total P hash items (item P hash i).1 + (item P hash i).2 := by
  simp [total, List.filter_append]

/-- Positive weights which add up to less than 2^16. -/
theorem nonzero_of_small {items : List (String × String × Int)} (positive : ∀ i ∈ items, 0 < i.2.2)
    (small : (items.map fun i => i.2.2).sum < 2 ^ 16) : Nonzero P hash items := by
  rintro before after rfl i hi
  have sums : ∀ l : List (String × String × Int), (l.map fun i => (item P hash i).2).sum =
      BitVec.ofInt 16 (l.map fun i => i.2.2).sum := by
    intro l
    induction l with
    | nil => rfl
    | cons i l ih => rw [List.map_cons, List.sum_cons, ih, List.map_cons, List.sum_cons, BitVec.ofInt_add]; rfl
  obtain ⟨mine, here⟩ : ∃ mine, mine = before.filter fun j => (item P hash j).1 = (item P hash i).1 := ⟨_, rfl⟩
  have below : mine.Sublist (before ++ after) := here ▸ List.filter_sublist.trans (List.sublist_append_left _ _)
  have some : i ∈ mine := here ▸ List.mem_filter.mpr ⟨hi, by simp⟩
  have low : 0 < (mine.map fun i => i.2.2).sum := by
    apply List.sum_pos
    · intro x hx
      obtain ⟨j, hj, rfl⟩ := List.mem_map.mp hx
      exact positive j (below.subset hj)
    · intro empty
      rw [List.map_eq_nil_iff.mp empty] at some
      cases some
  have high : (mine.map fun i => i.2.2).sum ≤ ((before ++ after).map fun i => i.2.2).sum := by
    apply (below.map fun i => i.2.2).sum_le_sum
    intro x hx
    obtain ⟨j, hj, rfl⟩ := List.mem_map.mp hx
    exact (positive j hj).le
  rw [total, ← here, sums]
  intro zero
  have value := congrArg BitVec.toNat zero
  rw [BitVec.toNat_ofInt] at value
  simp only [Nat.reducePow, Nat.cast_ofNat, BitVec.ofNat_eq_ofNat, BitVec.toNat_ofNat, Nat.zero_mod] at value
  omega

/-- A run of `insert` which does not use up the fingerprints fills the table. -/
theorem models_inserts {items : List (String × String × Int)} {t : BasketNode} (done : inserts P hash items = some t)
    (nonzero : Nonzero P hash items) : Models t (table P hash items) := by
  induction items using List.reverseRecOn generalizing t with
  | nil =>
      obtain rfl := Option.some.inj done
      exact models_new
  | append_singleton items i ih =>
      rw [inserts, List.foldlM_append] at done
      obtain ⟨t1, first, last⟩ := Option.bind_eq_some_iff.mp done
      have models := ih first fun before after split => nonzero before (after ++ [i]) (by rw [split, List.append_assoc])
      have settled : (table P hash items).Settled (probes P) := settled_table items
      have sum : ((table P hash items).value (probes P) (item P hash i).1).getD 0 + (item P hash i).2 ≠ 0 := by
        rw [table_value, ← total_append]
        exact nonzero (items ++ [i]) [] (by rw [List.append_nil]) i (List.mem_append_right items List.mem_cons_self)
      have step : (insert P hash t1 i.1 i.2.1 i.2.2).map Prod.fst = some t := by simpa using last
      have added : table P hash (items ++ [i]) = (table P hash items).add (probes P) (item P hash i).1 (item P hash i).2 := by
        rw [table, List.map_append, Store.addAll, List.foldl_append]
        rfl
      rw [added]
      cases ends : settle (table P hash items).cells (probes P (item P hash i).1) with
      | none =>
          have stuck : insert P hash t1 i.1 i.2.1 i.2.2 = none := models.place_none i.2.2 ends
          rw [stuck] at step
          cases step
      | some x =>
          obtain ⟨t', placed, models'⟩ := models.place_some settled ends sum
          have put : insert P hash t1 i.1 i.2.1 i.2.2 = some (t', true) := placed
          rw [put] at step
          obtain rfl := Option.some.inj step
          exact models'

end Runs

section EdgeQuery

variable {hash : String → UInt64}

/-- A query finds what the table has. -/
theorem Models.seek (models : Models t st) (settled : st.Settled (probes P)) (a b : Node P) :
    (seek P (candidates P a.1 b.1) t 0 a.1.g b.1.g).getD 0 = (st.value (probes P) (a, b)).getD 0 := by
  cases stored : st.value (probes P) (a, b) with
  | none =>
      cases found : Auxo.seek P (candidates P a.1 b.1) t 0 a.1.g b.1.g with
      | none => rfl
      | some w =>
          obtain ⟨n, v, here, q, hq, mine, rfl⟩ := @seek_some P t a.1.g b.1.g 0 _ w found
          rw [Nat.zero_add] at mine
          -- only an empty room can look like that of an edge which is not stored
          by_contra some
          obtain ⟨-, value⟩ := models.settle_of_holds settled here hq some mine
          rw [stored] at value
          cases value
  | some w =>
      rw [Store.value] at stored
      cases ends : settle st.cells (probes P (a, b)) with
      | none =>
          rw [ends] at stored
          rw [models.spilled] at stored
          cases stored
      | some x =>
          obtain ⟨level, inside, q, hq, rfl, firstHit, before⟩ := settle_level ends
          rw [ends] at stored
          obtain ⟨e, cell, rfl⟩ := Option.map_eq_some_iff.mp stored
          cases here : matrixAt t a b level with
          | none =>
              rw [← models.cells, view_none here] at cell
              cases cell
          | some v =>
              have same := accepts_iff.mp (settle_accepts ends) e.1 e.2 cell
              rw [← models.cells, view_some here] at cell
              have cell' : v.cell P level q.pos = some (label P a.1 b.1 level q, e.2) := by
                rw [cell]
                exact congrArg some (Prod.ext same rfl)
              obtain ⟨full, mine, weight⟩ := Gbasket.cell_eq_some.mp cell'
              have first : (candidates P a.1 b.1).find? (holdsAt v a b level) = some q := by
                apply find?_stronger firstHit mine
                intro q' _ holds
                rw [← models.cells, accepts_some here]
                exact Bool.or_eq_true_iff.mpr (.inr holds)
              have found := @seek_eq P t a.1.g b.1.g 0 level (candidates P a.1 b.1) v q here
                (by rw [Nat.zero_add]; exact first) fun m hm u there => by
                  obtain ⟨u', there', others⟩ := models.taken before m hm
                  obtain rfl := Option.some.inj (there.symm.trans there')
                  rw [Nat.zero_add, List.find?_eq_none]
                  intro q' hq'
                  simpa using (others q' hq').2
              have found : Auxo.seek P (candidates P a.1 b.1) t 0 a.1.g b.1.g = some (v.weight q.pos) := found
              rw [found, weight, Option.getD_some]

/-- An edge query returns the sum of the weights of the items with the same compressed edge, as an
    `unsigned short`. -/
theorem edgeQuery_sum {items : List (String × String × Int)} (done : inserts P hash items = some t)
    (nonzero : Nonzero P hash items) (s1 s2 : String) :
    edgeQuery P hash t s1 s2 = (total P hash items (nodeOf P (hash s1), nodeOf P (hash s2))).toNat := by
  have found := (models_inserts done nonzero).seek (settled_table items) (nodeOf P (hash s1)) (nodeOf P (hash s2))
  rw [table_value] at found
  rw [← found]
  have casts : ∀ x : Option (BitVec 16), (x.map BitVec.toNat).getD 0 = (x.getD 0).toNat := by
    intro x
    cases x <;> rfl
  rw [edgeQuery, casts]
  rfl

/-- A sketch whose tree grows with the second edge. -/
def tiny : Params where
  w := 1
  r := 2
  p := 1
  f := 6
  halfR := 1
  w_pos := by decide
  two_le := Nat.le_refl 2
  p_pos := by decide
  f_pos := by decide
  f_le := by decide
  halfR_eq := by decide
  rfnum_le := by decide
  area_lt := by decide

def firstLetter (s : String) : UInt64 := s.toList.foldl (fun a c => a * 31 + c.val.toUInt64) 7

def tinyItems : List (String × String × Int) := [("a", "b", 1), ("b", "c", 2), ("a", "c", 3), ("a", "b", 4)]

theorem tinyItems_nonzero : Nonzero tiny firstLetter tinyItems := nonzero_of_small (by decide) (by decide)

theorem edgeQuery_sum_tiny : ∃ t, inserts tiny firstLetter tinyItems = some t ∧ edgeQuery tiny firstLetter t "a" "b" =
    (total tiny firstLetter tinyItems (nodeOf tiny (firstLetter "a"), nodeOf tiny (firstLetter "b"))).toNat :=
  ⟨_, rfl, edgeQuery_sum rfl tinyItems_nonzero "a" "b"⟩

end EdgeQuery

end CuckooGraph.Auxo
