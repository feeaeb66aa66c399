import CuckooGraph.ShortestPaths
import CuckooGraph.Weighted.Accumulation
import CuckooGraph.WindBell.Weights

/-! # Weighted distances

The weighted loops relax the edges out of `vs` in every round. As long as no sum
wraps around, what they compare with a distance is greater than the weight in the
first row, and the first row is what is left at the end.
-/

namespace CuckooGraph

open Distances

namespace Sssp

/-- The distances in the graph between the nodes of the list. -/
def Shortest (topk : List Key) (w : Key → Key → Nat) (vs : Key) (s : Sssp) : Prop :=
  ∀ v ∈ topk, Distance (inside topk w) (2 ^ 32 - 1) vs v (s.dist v)

/-- To every node which is reached there is an edge, and no path is lighter. -/
def Direct (topk : List Key) (w : Key → Key → Nat) (vs : Key) : Prop :=
  ∀ v ∈ topk, v ≠ vs → ∀ n, Walk (inside topk w) vs n v → w vs v ≠ 0 ∧ w vs v ≤ n

/-- No weights of two edges out of `vs` add up to 2^32. -/
def Fits (topk : List Key) (w : Key → Key → Nat) (vs : Key) : Prop :=
  ∀ u ∈ topk, ∀ v ∈ topk, u ≠ v → u ≠ vs → v ≠ vs → w vs u + w vs v < 2 ^ 32

/-- The first row. -/
def row (w : Key → Key → Nat) (vs v : Key) : Nat :=
  if v = vs then 0 else if w vs v ≠ 0 then w vs v else 2 ^ 32 - 1

variable {weight : Key → Key → Option UInt32} {w : Key → Key → Nat} {topk : List Key} {vs : Key} {n : Nat} {s : Sssp}

section Rounds

variable (nodup : topk.Nodup) (asked : ∀ v ∈ topk, (weightedDriver weight).ask vs v = some (w vs v))

include asked

include nodup

/-- One round: the loops stop, or the distances are relaxed with the edges out of `vs`. -/
theorem rounds_turn (more : left topk s = n + 1) (top : ∀ v ∈ topk, s.dist v ≤ 2 ^ 32 - 1) :
    ∃ k ∈ topk, s.flag k = false ∧ (∀ v ∈ topk, s.flag v = false → s.dist k ≤ s.dist v) ∧
      ((s.dist k = 2 ^ 32 - 1 ∧ ∃ s', rounds (weightedDriver weight) topk vs (n + 1) s = some s' ∧ s'.dist = s.dist) ∨
        s.dist k ≠ 2 ^ 32 - 1 ∧ ∃ s', left topk s' = n ∧
          rounds (weightedDriver weight) topk vs (n + 1) s = rounds (weightedDriver weight) topk vs n s' ∧
          Relaxed topk (w vs) (fun v => (s.dist k + w vs v) % 2 ^ 32)
            ⟨Function.update s.flag k true, s.dist, some k⟩ s') := by
  obtain ⟨k, hk, open_, low, round⟩ := rounds_succ (D := weightedDriver weight) vs more
  refine ⟨k, hk, open_, low, ?_⟩
  by_cases stop : s.dist k = 2 ^ 32 - 1
  · exact .inl ⟨stop, _, round.trans (if_pos stop), rfl⟩
  · obtain ⟨s', done, relaxed⟩ := relax_spec (D := weightedDriver weight)
      (s := ⟨Function.update s.flag k true, s.dist, some k⟩) vs (s.dist k) _ asked (fun _ _ _ => rfl) top
    have count := left_flag nodup hk open_ relaxed.flag
    refine .inr ⟨stop, s', by omega, ?_, relaxed⟩
    rw [round]
    refine (if_neg stop).trans ?_
    change Option.bind (relax _ vs _ _ _) _ = _
    rw [done]
    rfl

/-- The rounds come to an end, and no distance grows. -/
theorem rounds_le (more : left topk s = n) (top : ∀ v ∈ topk, s.dist v ≤ 2 ^ 32 - 1) :
    ∃ s', rounds (weightedDriver weight) topk vs n s = some s' ∧ ∀ v, s'.dist v ≤ s.dist v := by
  induction n generalizing s with
  | zero => exact ⟨s, rfl, fun v => le_refl _⟩
  | succ n ih =>
      obtain ⟨k, -, -, -, ⟨-, s', stop, same⟩ | ⟨-, s', count, next, relaxed⟩⟩ := rounds_turn nodup asked more top
      · exact ⟨s', stop, fun v => (congrFun same v).le⟩
      · obtain ⟨s'', rest, less⟩ := ih count fun v hv => (relaxed.le v).trans (top v hv)
        exact ⟨s'', next.trans rest, fun v => (less v).trans (relaxed.le v)⟩

omit nodup asked in
theorem row_le (small : ∀ v ∈ topk, v ≠ vs → w vs v < 2 ^ 32 - 1) {v : Key} (hv : v ∈ topk) : row w vs v ≤ 2 ^ 32 - 1 := by
  unfold row
  split
  · omega
  · rename_i away
    have := small v hv away
    split <;> omega

section Open

variable {x : Key} (set : s.flag vs = true) (open_ : s.flag x = false)

include set open_

omit nodup asked in
theorem ne_of_open : x ≠ vs := by
  rintro rfl
  rw [set] at open_
  cases open_

omit nodup asked in
theorem dist_of_open (first : ∀ v ∈ topk, s.dist v = row w vs v) (hx : x ∈ topk) (edge : w vs x ≠ 0) :
    s.dist x = w vs x := by
  rw [first x hx, row, if_neg (ne_of_open set open_), if_pos edge]

end Open

/-- The first row is kept if no sum wraps around. -/
theorem rounds_row (small : ∀ v ∈ topk, v ≠ vs → w vs v < 2 ^ 32 - 1) (fits : Fits topk w vs) (more : left topk s = n)
    (set : s.flag vs = true) (first : ∀ v ∈ topk, s.dist v = row w vs v) {s' : Sssp}
    (done : rounds (weightedDriver weight) topk vs n s = some s') : ∀ v ∈ topk, s'.dist v = row w vs v := by
  induction n generalizing s with
  | zero =>
      obtain rfl := Option.some.inj done
      exact first
  | succ n ih =>
      obtain ⟨k, hk, open_, -, ⟨-, t, stop, same⟩ | ⟨finite, t, count, next, relaxed⟩⟩ := rounds_turn nodup asked more
        fun v hv => (first v hv).trans_le (row_le small hv)
      · obtain rfl := Option.some.inj (stop.symm.trans done)
        exact fun v hv => (congrFun same v).trans (first v hv)
      · have away : k ≠ vs := ne_of_open set open_
        have seen : t.flag vs = true := by
          rw [relaxed.flag]
          exact (Function.update_of_ne away.symm ..).trans set
        refine ih count seen (fun v hv => ?_) (next.symm.trans done)
        rcases relaxed.source v with same | ⟨edge, sum⟩
        · exact same.trans (first v hv)
        · by_cases set' : Function.update s.flag k true v = true
          · exact (relaxed.kept v set').trans (first v hv)
          · -- a sum which does not wrap around is no less than the weight
            have apart : k ≠ v := by
              rintro rfl
              exact set' (Function.update_self ..)
            have far : v ≠ vs := by
              rintro rfl
              exact set' (by rw [Function.update_of_ne away.symm, set])
            have less := relaxed.le v
            have total := fits k hk v hv apart away far
            have here := first k hk
            have there := first v hv
            rw [row, if_neg away] at here
            rw [row, if_neg far, if_pos edge] at there ⊢
            have chosen : w vs k ≠ 0 := fun zero => finite (by rw [here, if_neg (not_not.mpr zero)])
            rw [if_pos chosen] at here
            rw [here, Nat.mod_eq_of_lt total] at sum
            dsimp only at less
            omega

omit nodup asked in
/-- A sum which wraps around is less than the weight it is offered for. -/
theorem lower_of_wrap {k y : Key} {t : Sssp} (relaxed : Relaxed topk (w vs) (fun v => (s.dist k + w vs v) % 2 ^ 32)
    ⟨Function.update s.flag k true, s.dist, some k⟩ t) (hy : y ∈ topk) (apart : y ≠ k) (open_ : s.flag y = false)
    (dist : s.dist k = w vs k) (small : w vs k < 2 ^ 32 - 1 ∧ w vs y < 2 ^ 32 - 1) (wraps : 2 ^ 32 ≤ w vs k + w vs y) :
    t.dist y < w vs y := by
  have offered := relaxed.offered y hy ((Function.update_of_ne apart ..).trans open_) (by omega)
  have sum : (w vs k + w vs y) % 2 ^ 32 = w vs k + w vs y - 2 ^ 32 := by omega
  rw [dist, sum] at offered
  omega

/-- The first row is not kept if one does. -/
theorem rounds_wrap (small : ∀ v ∈ topk, v ≠ vs → w vs v < 2 ^ 32 - 1) {u v : Key} (hu : u ∈ topk) (hv : v ∈ topk)
    (other : u ≠ v) (wraps : 2 ^ 32 ≤ w vs u + w vs v) (more : left topk s = n)
    (unset : s.flag u = false ∧ s.flag v = false) (set : s.flag vs = true)
    (first : ∀ v ∈ topk, s.dist v = row w vs v) {s' : Sssp}
    (done : rounds (weightedDriver weight) topk vs n s = some s') : ∃ x ∈ topk, s'.dist x < row w vs x := by
  have awayU := ne_of_open set unset.1
  have awayV := ne_of_open set unset.2
  have hu' := small u hu awayU
  have hv' := small v hv awayV
  induction n generalizing s with
  | zero =>
      have set' := left_eq_zero more hu
      rw [unset.1] at set'
      cases set'
  | succ n ih =>
      obtain ⟨k, hk, open_, low, ⟨stop, t, -, -⟩ | ⟨finite, t, count, next, relaxed⟩⟩ := rounds_turn nodup asked more
        fun v hv => (first v hv).trans_le (row_le small hv)
      · have le := low u hu unset.1
        rw [stop, dist_of_open set unset.1 first hu (by omega)] at le
        omega
      · obtain ⟨t', rest, less⟩ := rounds_le nodup asked count fun x hx =>
          (relaxed.le x).trans ((first x hx).trans_le (row_le small hx))
        obtain rfl := Option.some.inj (rest.symm.trans (next.symm.trans done))
        have away : k ≠ vs := ne_of_open set open_
        have dist := dist_of_open set open_ first hk
        by_cases first_ : k = u
        · subst first_
          have lower := lower_of_wrap relaxed hv other.symm unset.2 (dist (by omega)) ⟨hu', hv'⟩ wraps
          exact ⟨v, hv, ((less v).trans_lt lower).trans_eq (by rw [row, if_neg awayV, if_pos (by omega)])⟩
        · by_cases second : k = v
          · subst second
            have lower := lower_of_wrap relaxed hu other unset.1 (dist (by omega)) ⟨hv', hu'⟩ (by omega)
            exact ⟨u, hu, ((less u).trans_lt lower).trans_eq (by rw [row, if_neg awayU, if_pos (by omega)])⟩
          · by_cases kept : ∀ x ∈ topk, t.dist x = row w vs x
            · have flag : ∀ x, x ≠ k → t.flag x = s.flag x := fun x apart => by
                rw [relaxed.flag]
                exact Function.update_of_ne apart ..
              exact ih count ⟨(flag u (Ne.symm first_)).trans unset.1, (flag v (Ne.symm second)).trans unset.2⟩
                ((flag vs away.symm).trans set) kept (next.symm.trans done)
            · push Not at kept
              obtain ⟨x, hx, changed⟩ := kept
              have lower := less x
              have low' := relaxed.le x
              have same := first x hx
              dsimp only at low'
              exact ⟨x, hx, by omega⟩

end Rounds

/-- What the loops leave. -/
theorem run_weighted (nodup : topk.Nodup) (hvs : vs ∈ topk)
    (asked : ∀ v ∈ topk, (weightedDriver weight).ask vs v = some (w vs v))
    (light : ∀ n p v, Path (inside topk w) vs n p v → n < 2 ^ 32 - 1) :
    ∃ s, run (weightedDriver weight) topk vs = some s ∧
      (Fits topk w vs → (Shortest topk w vs s ↔ Direct topk w vs)) ∧
      (Direct topk w vs → (Shortest topk w vs s ↔ Fits topk w vs)) := by
  obtain ⟨s, started, start⟩ := run_eq nodup hvs asked
  have small : ∀ v ∈ topk, v ≠ vs → w vs v < 2 ^ 32 - 1 := by
    intro v hv away
    by_cases edge : w vs v = 0
    · omega
    · have path : Path (inside topk w) vs (0 + w vs v) [v, vs] v :=
        Path.here.step ⟨hvs, hv, rfl, edge⟩ (by simpa using away)
      have := light _ _ _ path
      omega
  have first : ∀ v ∈ topk, s.dist v = row w vs v := by
    intro v hv
    by_cases here : v = vs
    · rw [row, if_pos here, here, started.source]
    · rw [row, if_neg here, started.direct v hv here]
      rfl
  have count : left topk s = topk.length - 1 := Nat.eq_sub_of_add_eq started.left
  obtain ⟨s', done, -⟩ := rounds_le nodup asked count fun v hv => (first v hv).trans_le (row_le small hv)
  have kept : Fits topk w vs → ∀ v ∈ topk, s'.dist v = row w vs v := fun fits =>
    rounds_row nodup asked small fits count ((started.flag vs).mpr rfl) first done
  have right : Direct topk w vs → ∀ v ∈ topk, Distance (inside topk w) (2 ^ 32 - 1) vs v (row w vs v) := by
    intro direct v hv
    by_cases here : v = vs
    · rw [row, if_pos here, here]
      exact .self
    · rw [row, if_neg here]
      split
      · rename_i edge
        exact .inl ⟨Walk.single ⟨hvs, hv, rfl, edge⟩, fun n walk => (direct v hv here n walk).2⟩
      · rename_i none
        exact .inr ⟨rfl, fun n walk => none (direct v hv here n walk).1⟩
  have shortest : Fits topk w vs → Direct topk w vs → Shortest topk w vs s' := fun fits direct v hv =>
    kept fits v hv ▸ right direct v hv
  refine ⟨s', start.trans done, fun fits => ⟨fun found v hv away n walk => ?_, shortest fits⟩,
    fun direct => ⟨fun found u hu v hv other hu' hv' => ?_, fun fits => shortest fits direct⟩⟩
  · have found := found v hv
    rw [kept fits v hv, row, if_neg away] at found
    rcases found with least | ⟨-, none⟩
    · by_cases edge : w vs v = 0
      · -- a path would weigh `INF`
        obtain ⟨m, p, le, path⟩ := walk.path
        have low := least.2 path.walk
        have short := light m p v path
        rw [if_neg (not_not.mpr edge)] at low
        omega
      · rw [if_pos edge] at least
        exact ⟨edge, least.2 walk⟩
    · exact absurd walk (none n)
  · by_contra wraps
    have open_ : ∀ x, x ≠ vs → s.flag x = false := fun x away =>
      Bool.eq_false_iff.mpr fun set => away ((started.flag x).mp set)
    obtain ⟨x, hx, less⟩ := rounds_wrap nodup asked small hu hv other (Nat.le_of_not_lt wraps) count
      ⟨open_ u hu', open_ v hv'⟩ ((started.flag vs).mpr rfl) first done
    exact less.ne ((found x hx).unique (right direct x hx))

end Sssp

open Sssp

/-- If no two weights add up to 2^32, the loops find the distances just if the
    edges out of `vs` are lightest paths, and if these are, just if no two weights do. -/
theorem testSssp_exact_iff (E : Env) (topk : List Key) (nodup : topk.Nodup) (vs : Key) (hvs : vs ∈ topk)
    (weight : Key → Key → UInt32) (m : Memory Weighted.Cell) (hole : Holemerge Weighted.Cell)
    (holds : ∀ a ∈ topk, ∀ b ∈ topk, Weighted.query E m hole ⟨a, b⟩ = weight a b)
    (wind : WindBell.Chandelier UInt32)
    (answers : ∀ a ∈ topk, ∀ b ∈ topk, wind.queryWeight E ⟨a, b⟩ = some (weight a b))
    (light : ∀ n p v, Path (inside topk fun a b => (weight a b).toNat) vs n p v → n < 2 ^ 32 - 1) :
    let w := fun a b => (weight a b).toNat
    (∃ s, testSsspHole E topk vs m hole = some s ∧
      (Fits topk w vs → (Shortest topk w vs s ↔ Direct topk w vs)) ∧
      (Direct topk w vs → (Shortest topk w vs s ↔ Fits topk w vs))) ∧
    ∃ s, testSsspWind E topk vs wind = some s ∧
      (Fits topk w vs → (Shortest topk w vs s ↔ Direct topk w vs)) ∧
      (Direct topk w vs → (Shortest topk w vs s ↔ Fits topk w vs)) := by
  intro w
  constructor
  · apply run_weighted nodup hvs _ light
    intro v hv
    simp only [weightedDriver, holds vs hvs v hv, Option.map_some]
  · apply run_weighted nodup hvs _ light
    intro v hv
    simp only [weightedDriver, answers vs hvs v hv, Option.map_some]

section Examples

/-- Two errors may cancel out: there is a lighter path to 4, and its weight is
    what the sum of two weights leaves. -/
example : (run (weightedDriver fun a b => some (Weighted.total [(⟨1, 2⟩, 1), (⟨1, 3⟩, 2147483648),
    (⟨1, 4⟩, 2147483658), (⟨2, 4⟩, 9)] ⟨a, b⟩)) [1, 2, 3, 4] 1).map (fun r => [1, 2, 3, 4].map r.dist) =
    some [0, 1, 2147483648, 10] := by decide +kernel

/-- No path is heavy in a graph without a cycle of which the nodes are numbered. -/
theorem Sssp.light_of_rises {topk : List Key} {w : Key → Key → Nat} {vs : Key} (hvs : vs ∈ topk) (φ : Key → Nat)
    (rises : ∀ u ∈ topk, ∀ v ∈ topk, w u v ≠ 0 → φ u + w u v ≤ φ v) (small : ∀ v ∈ topk, φ v < 2 ^ 32 - 1)
    (n : Nat) (p : List Key) (v : Key) (path : Path (inside topk w) vs n p v) : n < 2 ^ 32 - 1 := by
  have high : n ≤ φ v := path.walk.le_potential fun u c v edge => by
    obtain ⟨hu, hv, rfl, edge⟩ := edge
    exact rises u hu v hv edge
  have hv : v ∈ topk := by
    cases path with
    | here => exact hvs
    | step _ last _ => exact last.2.1
  exact high.trans_lt (small v hv)

/-- Two edges out of the source. -/
theorem testSssp_exact_star :
    let s := Weighted.weighted colliding 0 221 [(⟨1, 2⟩, 1), (⟨1, 3⟩, 1)] bl1 bl2
    ∃ r, testSsspHole colliding [1, 2, 3] 1 s.1 s.2 = some r ∧
      Shortest [1, 2, 3] (fun a b => (Weighted.total [(⟨1, 2⟩, 1), (⟨1, 3⟩, 1)] ⟨a, b⟩).toNat) 1 r := by
  obtain ⟨⟨r, done, -, exactly⟩, -⟩ := testSssp_exact_iff colliding [1, 2, 3] (by decide) 1 (by decide)
    (fun a b => Weighted.total [(⟨1, 2⟩, 1), (⟨1, 3⟩, 1)] ⟨a, b⟩)
    (Weighted.weighted colliding 0 221 [(⟨1, 2⟩, 1), (⟨1, 3⟩, 1)] bl1 bl2).1
    (Weighted.weighted colliding 0 221 [(⟨1, 2⟩, 1), (⟨1, 3⟩, 1)] bl1 bl2).2 (by decide +kernel)
    (WindBell.Chandelier.insertCalls colliding 1 [(⟨1, 2⟩, none, none), (⟨1, 3⟩, none, none)]) (by decide +kernel)
    (Sssp.light_of_rises (by decide) (fun v => (v - 1).toNat) (by decide) (by decide))
  refine ⟨r, done, (exactly fun v hv away n walk => ?_).mpr ?_⟩
  · have edge : ∀ v ∈ ([1, 2, 3] : List Key), v ≠ 1 →
        (Weighted.total [(⟨1, 2⟩, 1), (⟨1, 3⟩, 1)] ⟨1, v⟩).toNat = 1 := by decide
    simp only [edge v hv away]
    cases walk with
    | here => exact absurd rfl away
    | step _ last =>
        obtain ⟨-, -, -, positive⟩ := last
        exact ⟨Nat.one_ne_zero, by omega⟩
  · unfold Fits
    decide

/-- Two edges in a row: the node at the end of the second is not reached. -/
theorem testSssp_misses :
    let s := Weighted.weighted colliding 0 221 [(⟨1, 2⟩, 1), (⟨2, 3⟩, 1)] bl1 bl2
    let c := WindBell.Chandelier.insertCalls colliding 1 [(⟨1, 2⟩, none, none), (⟨2, 3⟩, none, none)]
    let w := fun a b => (Weighted.query colliding s.1 s.2 ⟨a, b⟩).toNat
    (∀ n p v, Path (inside [1, 2, 3] w) 1 n p v → n < 2 ^ 32 - 1) ∧ Walk (inside [1, 2, 3] w) 1 2 3 ∧
      (testSsspHole colliding [1, 2, 3] 1 s.1 s.2).map (fun r => r.dist 3) = some (2 ^ 32 - 1) ∧
      (testSsspWind colliding [1, 2, 3] 1 c).map (fun r => r.dist 3) = some (2 ^ 32 - 1) := by
  intro s c w
  refine ⟨Sssp.light_of_rises (by decide) (fun v => (v - 1).toNat) (by decide +kernel) (by decide), ?_,
    by decide +kernel, by decide +kernel⟩
  have first : w 1 2 = 1 := by decide +kernel
  have second : w 2 3 = 1 := by decide +kernel
  have walk : Walk (inside [1, 2, 3] w) 1 1 2 := .single ⟨by decide, by decide, first, by decide⟩
  exact walk.step ⟨by decide, by decide, second, by decide⟩

end Examples

end CuckooGraph
