import CuckooGraph.Auxo.Nodes

/-! # Ways down the tree

A matrix is named by the way to it. The loops of `insert` and `edgeQuery` go down the
route of an edge, and change or read the first matrix on it which they can.
-/

namespace CuckooGraph.Auxo

variable {P : Params}

namespace BasketNode

/-- The matrix at the end of a way. -/
def matrix : BasketNode → List Bool → Option Gbasket
  | .null, _ => none
  | .node value _ _, [] => some value
  | .node _ next0 next1, way :: path => if way then next1.matrix path else next0.matrix path

/-- No node has a single child. -/
def Full : BasketNode → Prop
  | .null => True
  | .node _ next0 next1 => next0.isNull = next1.isNull ∧ next0.Full ∧ next1.Full

/-- A node with another child on one side. -/
def graft (value : Gbasket) (next0 next1 : BasketNode) (way : Bool) (t : BasketNode) : BasketNode :=
  if way then .node value next0 t else .node value t next1

variable {t : BasketNode} {path : List Bool} {value : Gbasket} {next0 next1 : BasketNode} {way : Bool}

theorem matrix_null (path : List Bool) : null.matrix path = none := by cases path <;> rfl

theorem matrix_cons : (node value next0 next1).matrix (way :: path) = (if way then next1 else next0).matrix path := by
  cases way <;> rfl

theorem isNull_iff : t.isNull = true ↔ t = null := by cases t <;> simp [isNull]

theorem matrix_nil : t.matrix [] = none ↔ t = null := by cases t <;> simp [matrix]

theorem isNull_graft : (graft value next0 next1 way t).isNull = false := by cases way <;> rfl

theorem matrix_graft_nil : (graft value next0 next1 way t).matrix [] = some value := by cases way <;> rfl

theorem matrix_graft_cons (turn : Bool) : (graft value next0 next1 way t).matrix (turn :: path) =
    if turn = way then t.matrix path else (node value next0 next1).matrix (turn :: path) := by
  cases way <;> cases turn <;> rfl

theorem Full.graft (full : (node value next0 next1).Full) (same : t.isNull = (if way then next1 else next0).isNull)
    (mine : (if way then next1 else next0).Full → t.Full) : (graft value next0 next1 way t).Full := by
  cases way with
  | true => exact ⟨full.1.trans same.symm, full.2.1, mine full.2.2⟩
  | false => exact ⟨same.trans full.1, mine full.2.1, full.2.2⟩

theorem Full.child (full : (node value next0 next1).Full) : (if way then next1 else next0).Full := by
  cases way with
  | true => exact full.2.2
  | false => exact full.2.1

theorem Full.null (full : (node value next0 next1).Full) (ends : (if way then next1 else next0) = .null) :
    next0 = .null ∧ next1 = .null := by
  cases way with
  | true =>
      obtain rfl : next1 = .null := ends
      exact ⟨isNull_iff.mp full.1, rfl⟩
  | false =>
      obtain rfl : next0 = .null := ends
      exact ⟨rfl, isNull_iff.mp full.1.symm⟩

/-- There is no matrix behind the end of a way. -/
theorem matrix_append {rest : List Bool} (ends : t.matrix path = none) : t.matrix (path ++ rest) = none := by
  induction path generalizing t with
  | nil =>
      rw [matrix_nil.mp ends]
      exact matrix_null _
  | cons way path ih =>
      cases t with
      | null => exact matrix_null _
      | node value next0 next1 =>
          rw [matrix_cons] at ends
          rw [List.cons_append, matrix_cons]
          exact ih ends

/-- A matrix has both children or none. -/
theorem Full.sibling (full : t.Full) (here : t.matrix path = some value) (ends : t.matrix (path ++ [way]) = none) :
    t.matrix (path ++ [!way]) = none := by
  induction path generalizing t with
  | nil =>
      cases t with
      | null => cases here
      | node value next0 next1 =>
          rw [List.nil_append, matrix_cons, matrix_nil] at ends
          obtain ⟨rfl, rfl⟩ := full.null ends
          rw [List.nil_append, matrix_cons, ite_self, matrix_null]
  | cons turn path ih =>
      cases t with
      | null =>
          rw [matrix_null] at here
          cases here
      | node value next0 next1 =>
          rw [matrix_cons] at here
          rw [List.cons_append, matrix_cons] at ends ⊢
          exact ih full.child here ends

end BasketNode

open BasketNode

variable {t : BasketNode} {value : Gbasket} {next0 next1 : BasketNode} {g1 g2 level n : Nat}

/-- The first turn of a route. -/
theorem matrix_route_succ : (BasketNode.node value next0 next1).matrix (route g1 g2 level (n + 1)) =
    (if way g1 g2 level then next1 else next0).matrix (route g1 g2 (level + 1) n) := by rw [route_succ, matrix_cons]

theorem route_add (k : Nat) : route g1 g2 level (n + k) = route g1 g2 level n ++ route g1 g2 (level + n) k := by
  rw [route, ← List.range'_append_1, List.map_append, ← route, ← route]

/-- There is no matrix on a route behind one which is missing. -/
theorem matrix_route_none (ends : t.matrix (route g1 g2 level n) = none) {m : Nat} (le : n ≤ m) :
    t.matrix (route g1 g2 level m) = none := by
  obtain ⟨k, rfl⟩ := Nat.exists_eq_add_of_le le
  rw [route_add]
  exact matrix_append ends

section Descend

variable {change : Nat → Nat → Nat → Gbasket → Option Gbasket} {v v' : Gbasket}

theorem descend_node (stay : change level (srcLeft g1 level) (dstLeft g2 level) value = none) :
    descend change (.node value next0 next1) level (srcLeft g1 level) (dstLeft g2 level) =
      (descend change (if way g1 g2 level then next1 else next0) (level + 1) (srcLeft g1 (level + 1))
        (dstLeft g2 (level + 1))).map (graft value next0 next1 (way g1 g2 level)) := by
  rw [descend, stay]
  simp only [turn_eq]
  cases way g1 g2 level <;> rfl

/-- The loop changes the first matrix it can. -/
theorem descend_eq (here : t.matrix (route g1 g2 level n) = some v)
    (done : change (level + n) (srcLeft g1 (level + n)) (dstLeft g2 (level + n)) v = some v')
    (before : ∀ m < n, ∀ u, t.matrix (route g1 g2 level m) = some u →
      change (level + m) (srcLeft g1 (level + m)) (dstLeft g2 (level + m)) u = none) :
    ∃ t', descend change t level (srcLeft g1 level) (dstLeft g2 level) = some t' ∧ t'.isNull = t.isNull ∧
      (∀ path, t'.matrix path = if path = route g1 g2 level n then some v' else t.matrix path) ∧ (t.Full → t'.Full) := by
  induction n generalizing t level with
  | zero =>
      cases t with
      | null => cases here
      | node value next0 next1 =>
          obtain rfl := Option.some.inj here
          rw [Nat.add_zero] at done
          refine ⟨.node v' next0 next1, by simp only [descend, done], rfl, fun path => ?_, id⟩
          cases path with
          | nil => rfl
          | cons way path => rfl
  | succ n ih =>
      cases t with
      | null =>
          rw [matrix_null] at here
          cases here
      | node value next0 next1 =>
          have shift : ∀ m, level + (m + 1) = level + 1 + m := fun m => by omega
          rw [matrix_route_succ] at here
          rw [shift] at done
          obtain ⟨t', descended, null, all, full⟩ := ih here done fun m hm u there => by
            have stay := before (m + 1) (Nat.succ_lt_succ hm) u (by rw [matrix_route_succ]; exact there)
            rwa [shift] at stay
          refine ⟨graft value next0 next1 (way g1 g2 level) t', ?_, isNull_graft, fun path => ?_, fun f => ?_⟩
          · have first := before 0 (Nat.succ_pos n) value rfl
            rw [Nat.add_zero] at first
            rw [descend_node first, descended, Option.map_some]
          · rw [route_succ]
            cases path with
            | nil => exact matrix_graft_nil
            | cons turn path =>
                rw [matrix_graft_cons]
                by_cases same : turn = way g1 g2 level
                · subst same
                  simp only [if_true, all, List.cons.injEq, true_and, matrix_cons]
                · simp only [same, if_false, List.cons.injEq, false_and]
          · exact f.graft null full

/-- The loop comes to the end of the way. -/
theorem descend_none (stay : ∀ m u, t.matrix (route g1 g2 level m) = some u →
    change (level + m) (srcLeft g1 (level + m)) (dstLeft g2 (level + m)) u = none) :
    descend change t level (srcLeft g1 level) (dstLeft g2 level) = none := by
  induction t generalizing level with
  | null => rfl
  | node value next0 next1 ih0 ih1 =>
      have later : ∀ m u, (if way g1 g2 level then next1 else next0).matrix (route g1 g2 (level + 1) m) = some u →
          change (level + 1 + m) (srcLeft g1 (level + 1 + m)) (dstLeft g2 (level + 1 + m)) u = none := by
        intro m u there
        have shift : level + 1 + m = level + (m + 1) := by omega
        rw [shift]
        apply stay (m + 1) u
        rw [matrix_route_succ]
        exact there
      have first := stay 0 value rfl
      rw [Nat.add_zero] at first
      rw [descend_node first]
      cases turned : way g1 g2 level with
      | true =>
          rw [turned] at later
          exact congrArg (Option.map _) (ih1 later)
      | false =>
          rw [turned] at later
          exact congrArg (Option.map _) (ih0 later)

end Descend

section Append

variable {qs : List Candidate} {weight : Int} {v : Gbasket}

/-- An empty matrix. -/
def blank : Gbasket := ⟨fun _ => 0, fun _ => 0, fun _ => 0, fun _ => 0⟩

theorem append_node (there : (if way g1 g2 level then next1 else next0).isNull = false) :
    append P qs g1 g2 weight (.node value next0 next1) level (srcLeft g1 level) (dstLeft g2 level) =
      (append P qs g1 g2 weight (if way g1 g2 level then next1 else next0) (level + 1) (srcLeft g1 (level + 1))
        (dstLeft g2 (level + 1))).map fun t => (graft value next0 next1 (way g1 g2 level) t.1, t.2) := by
  rw [append]
  simp only [turn_eq, there]
  cases way g1 g2 level <;> rfl

/-- What is shifted out of the fingerprints. -/
theorem shift_eq (inside : level < depth P) : P.f - srcFigSize P level = level >>> 1 ∧
    P.f - dstFigSize P level = level >>> 1 + (level &&& 1) := by
  have pos := P.f_pos
  simp only [depth, srcFigSize, dstFigSize, Nat.shiftRight_one, Nat.and_one_is_mod] at inside ⊢
  omega

theorem initialGbasket_eq : initialGbasket (srcFigSize P level) (dstFigSize P level) =
    if level < depth P then some blank else none := by
  have pos := P.f_pos
  by_cases inside : level < depth P
  · have sizes : ¬ (srcFigSize P level = 0 ∨ dstFigSize P level = 0) := by
      simp only [depth, srcFigSize, dstFigSize, Nat.shiftRight_one, Nat.and_one_is_mod] at inside ⊢
      omega
    rw [initialGbasket, if_neg sizes, if_pos inside, blank]
  · have sizes : srcFigSize P level = 0 ∨ dstFigSize P level = 0 := by
      simp only [depth, srcFigSize, dstFigSize, Nat.shiftRight_one, Nat.and_one_is_mod] at inside ⊢
      omega
    rw [initialGbasket, if_pos sizes, if_neg inside]

/-- The last matrix on the way gets two children, and the edge comes into one of them. -/
theorem append_eq {q : Candidate} {rest : List Candidate} (here : t.matrix (route g1 g2 level n) = some v)
    (ends : t.matrix (route g1 g2 level (n + 1)) = none) (full : t.Full) (inside : level + n < depth P) :
    append P (q :: rest) g1 g2 weight t level (srcLeft g1 level) (dstLeft g2 level) =
        none ∧ ¬ level + n + 1 < depth P ∨
      ∃ t', append P (q :: rest) g1 g2 weight t level (srcLeft g1 level) (dstLeft g2 level) = some (t', true) ∧
        level + n + 1 < depth P ∧ t'.isNull = false ∧ t'.Full ∧
        ∀ path, t'.matrix path =
          if path = route g1 g2 level (n + 1) then
            some (blank.write P (level + n + 1) (srcLeft g1 (level + n + 1)) (dstLeft g2 (level + n + 1)) weight q)
          else if path = route g1 g2 level n ++ [!way g1 g2 (level + n)] then some blank else t.matrix path := by
  induction n generalizing t level with
  | zero =>
      cases t with
      | null => cases here
      | node value next0 next1 =>
          obtain rfl := Option.some.inj here
          rw [matrix_route_succ] at ends
          have none : (if way g1 g2 level then next1 else next0) = null := matrix_nil.mp ends
          rw [append]
          simp only [turn_eq, none, isNull, if_true, initialGbasket_eq, Nat.add_zero]
          by_cases deeper : level + 1 < depth P
          · right
            obtain ⟨src, dst⟩ := shift_eq inside
            have target : turn level (g1 >>> (P.f - srcFigSize P level)) (g2 >>> (P.f - dstFigSize P level)) =
                (way g1 g2 level, srcLeft g1 (level + 1), dstLeft g2 (level + 1)) := by
              rw [← turn_eq, srcLeft, dstLeft]
              simp only [Nat.add_zero] at src dst
              rw [src, dst]
            obtain ⟨rfl, rfl⟩ := full.null none
            have first : (q :: rest).find? (fun q => decide (blank.weight q.pos = 0)) = some q :=
              List.find?_cons_of_pos (by simp [blank])
            simp only [if_pos deeper, Option.map_some, first, target]
            refine ⟨_, rfl, deeper, ?_, ?_, fun path => ?_⟩
            · cases way g1 g2 level <;> rfl
            · cases way g1 g2 level <;> simp [Full, isNull]
            · rw [route_succ]
              cases path with
              | nil => cases way g1 g2 level <;> rfl
              | cons turn path =>
                  cases path with
                  | nil => cases way g1 g2 level <;> cases turn <;> rfl
                  | cons turn' path => cases way g1 g2 level <;> cases turn <;> simp [matrix, route]
          · left
            rw [if_neg deeper]
            exact ⟨rfl, deeper⟩
  | succ n ih =>
      cases t with
      | null =>
          rw [matrix_null] at here
          cases here
      | node value next0 next1 =>
          have shift : ∀ m, level + (m + 1) = level + 1 + m := fun m => by omega
          rw [matrix_route_succ] at here ends
          rw [shift] at inside ⊢
          have there : (if way g1 g2 level then next1 else next0).isNull = false := by
            cases next : (if way g1 g2 level then next1 else next0) with
            | null =>
                rw [next, matrix_null] at here
                cases here
            | node value next0 next1 => rfl
          rw [append_node there]
          rcases ih here ends full.child inside with ⟨stuck, deep⟩ | ⟨t', done, deeper, null, full', all⟩
          · left
            exact ⟨by rw [stuck, Option.map_none], deep⟩
          · right
            refine ⟨graft value next0 next1 (way g1 g2 level) t', by rw [done, Option.map_some], deeper, isNull_graft,
              full.graft (null.trans there.symm) fun _ => full', fun path => ?_⟩
            cases path with
            | nil => exact matrix_graft_nil
            | cons turn path =>
                rw [matrix_graft_cons, @route_succ g1 g2 level (n + 1), @route_succ g1 g2 level n, List.cons_append]
                by_cases same : turn = way g1 g2 level
                · subst same
                  simp only [if_true, all, List.cons.injEq, true_and, matrix_cons]
                · simp only [same, if_false, List.cons.injEq, false_and]

end Append

section Seek

variable {qs : List Candidate} {v : Gbasket} {w : BitVec 16}

theorem seek_node (stay : qs.find? (value.holds P level (srcLeft g1 level) (dstLeft g2 level)) = none) :
    seek P qs (.node value next0 next1) level (srcLeft g1 level) (dstLeft g2 level) =
      seek P qs (if way g1 g2 level then next1 else next0) (level + 1) (srcLeft g1 (level + 1)) (dstLeft g2 (level + 1)) := by
  rw [seek, stay]
  simp only [turn_eq]
  cases way g1 g2 level <;> rfl

/-- The query ends at the first room which has the label. -/
theorem seek_eq {q : Candidate} (here : t.matrix (route g1 g2 level n) = some v)
    (done : qs.find? (v.holds P (level + n) (srcLeft g1 (level + n)) (dstLeft g2 (level + n))) = some q)
    (before : ∀ m < n, ∀ u, t.matrix (route g1 g2 level m) = some u →
      qs.find? (u.holds P (level + m) (srcLeft g1 (level + m)) (dstLeft g2 (level + m))) = none) :
    seek P qs t level (srcLeft g1 level) (dstLeft g2 level) = some (v.weight q.pos) := by
  induction n generalizing t level with
  | zero =>
      cases t with
      | null => cases here
      | node value next0 next1 =>
          obtain rfl := Option.some.inj here
          rw [Nat.add_zero] at done
          rw [seek, done]
  | succ n ih =>
      cases t with
      | null =>
          rw [matrix_null] at here
          cases here
      | node value next0 next1 =>
          have shift : ∀ m, level + (m + 1) = level + 1 + m := fun m => by omega
          have first := before 0 (Nat.succ_pos n) value rfl
          rw [matrix_route_succ] at here
          rw [Nat.add_zero] at first
          rw [shift] at done
          rw [seek_node first]
          apply ih here done
          intro m hm u there
          have stay := before (m + 1) (Nat.succ_lt_succ hm) u (by rw [matrix_route_succ]; exact there)
          rwa [shift] at stay

/-- What a query returns is in a room with the label. -/
theorem seek_some (found : seek P qs t level (srcLeft g1 level) (dstLeft g2 level) = some w) :
    ∃ n v, t.matrix (route g1 g2 level n) = some v ∧ ∃ q ∈ qs,
      v.holds P (level + n) (srcLeft g1 (level + n)) (dstLeft g2 (level + n)) q = true ∧ v.weight q.pos = w := by
  induction t generalizing level with
  | null => cases found
  | node value next0 next1 ih0 ih1 =>
      cases first : qs.find? (value.holds P level (srcLeft g1 level) (dstLeft g2 level)) with
      | some q =>
          rw [seek, first] at found
          exact ⟨0, value, rfl, q, List.mem_of_find?_eq_some first, List.find?_some first, Option.some.inj found⟩
      | none =>
          rw [seek_node first] at found
          have deeper : ∃ n v, (if way g1 g2 level then next1 else next0).matrix (route g1 g2 (level + 1) n) = some v ∧
              ∃ q ∈ qs, v.holds P (level + 1 + n) (srcLeft g1 (level + 1 + n)) (dstLeft g2 (level + 1 + n)) q = true ∧
                v.weight q.pos = w := by
            cases turned : way g1 g2 level with
            | true =>
                rw [turned] at found
                exact ih1 found
            | false =>
                rw [turned] at found
                exact ih0 found
          obtain ⟨n, v, there, q, hq, holds, weight⟩ := deeper
          have shift : level + 1 + n = level + (n + 1) := by omega
          rw [shift] at holds
          exact ⟨n + 1, v, by rw [matrix_route_succ]; exact there, q, hq, holds, weight⟩

end Seek

end CuckooGraph.Auxo
