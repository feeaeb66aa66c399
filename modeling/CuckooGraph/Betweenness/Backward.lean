import CuckooGraph.Betweenness.Forward
import Mathlib.Algebra.Order.Field.Rat
import Mathlib.Algebra.BigOperators.Group.List.Basic

/-! # The backward phase

The nodes come from the stack by falling distance, so that the dependency of a
node is complete when its predecessors are credited. What is added to `CB[v]` is
added for every predecessor of `v` but the source, and not for `v`.
-/

namespace CuckooGraph

open BreadthFirst

namespace Bc

/-- What the successors in a list add to the dependency of a node. -/
def share (b : Bc) (delta : Key → ℚ) (ws : List Key) (v : Key) : ℚ :=
  ((ws.filter fun w => v ∈ b.prev w).map fun w => (b.sigma v : ℚ) / b.sigma w * (1 + delta w)).sum

/-- `delta` solves the equations of the dependencies. -/
def Dependency (b : Bc) (delta : Key → ℚ) : Prop := ∀ v, delta v = share b delta b.S v

variable {next : Key → List Key} {s : Key} {b : Bc} {delta : Key → ℚ}

theorem share_snoc (ws : List Key) (w v : Key) : share b delta (ws ++ [w]) v =
    share b delta ws v + if v ∈ b.prev w then (b.sigma v : ℚ) / b.sigma w * (1 + delta w) else 0 := by
  by_cases member : v ∈ b.prev w <;> simp [share, member]

/-- How often `CB[v]` is added to. -/
def credits (b : Bc) (s v : Key) : Nat := ((b.prev v).filter (· ≠ s)).length

/-- The loop over the predecessors of `v`. -/
theorem foldl_credit {v : Key} (us : List Key) (once : us.Nodup) (other : v ∉ us) (c : Sums) :
    let c' := us.foldl (credit b s v) c
    (∀ u, c'.delta u = c.delta u + if u ∈ us then (b.sigma u : ℚ) / b.sigma v * (1 + c.delta v) else 0) ∧
      ∀ w, c'.CB w = c.CB w + if w = v then ((us.filter (· ≠ s)).length : ℚ) * c.delta v else 0 := by
  induction us generalizing c with
  | nil => simp
  | cons x us ih =>
      obtain ⟨fresh, once⟩ := List.nodup_cons.mp once
      obtain ⟨apart, other⟩ := not_or.mp (other ∘ List.mem_cons.mpr)
      have delta : (credit b s v c x).delta =
          Function.update c.delta x (c.delta x + (b.sigma x : ℚ) / b.sigma v * (1 + c.delta v)) := by
        simp only [credit]
        split <;> rfl
      have CB : (credit b s v c x).CB = Function.update c.CB v (c.CB v + if x ≠ s then c.delta v else 0) := by
        by_cases source : x = s
        · simp [credit, source]
        · simp [credit, source, Function.update_of_ne apart]
      have kept : (credit b s v c x).delta v = c.delta v := by rw [delta, Function.update_of_ne apart]
      obtain ⟨first, second⟩ := ih once other (credit b s v c x)
      simp only [List.foldl_cons]
      refine ⟨fun u => ?_, fun w => ?_⟩
      · rw [first, kept, delta]
        by_cases here : u = x
        · subst here
          simp [fresh]
        · simp [here]
      · rw [second, kept, CB]
        by_cases here : w = v
        · subst here
          by_cases source : x = s
          · simp [source]
          · simp [source]
            ring
        · simp [here]

/-- The data of the forward phase, without an overflow. -/
structure Given (next : Key → List Key) (s : Key) (b : Bc) : Prop extends Bc.Forward next s b where
  counts : ∀ v, Reach next s v → b.sigma v = shortestPaths next s v

namespace Given

variable (given : Given next s b)

include given

theorem finite : {v | Reach next s v}.Finite := by
  refine (List.finite_toSet b.S).subset fun v reached => ?_
  exact (given.nodes v).mpr reached

theorem sigma_pos {v : Key} (reached : Reach next s v) : 0 < b.sigma v := by
  rw [given.counts v reached]
  exact shortestPaths_pos given.finite reached

/-- What is below a node on the stack is no farther. -/
theorem below (done rest : List Key) {v w : Key} (stack : b.S = done ++ v :: rest) (hw : w ∈ b.S)
    (farther : hop next s v < hop next s w) : w ∈ done := by
  have sorted := given.sorted
  rw [stack, List.pairwise_reverse] at sorted
  rw [stack] at hw
  rcases List.mem_append.mp hw with hw | hw
  · exact hw
  · have order := (List.pairwise_cons.mp (List.pairwise_append.mp sorted).2.1).1
    rcases List.mem_cons.mp hw with rfl | hw
    · omega
    · have := order w hw
      omega

/-- The successors of a node are above it on the stack. -/
theorem share_complete {done rest : List Key} {v : Key} (stack : b.S = done ++ v :: rest) :
    share b delta b.S v = share b delta done v := by
  have none : (v :: rest).filter (fun w => v ∈ b.prev w) = [] := by
    refine List.filter_eq_nil_iff.mpr fun w hw => ?_
    rw [decide_eq_true_eq]
    intro member
    have step := ((given.prev v w).mp member).2.2
    have above := given.below done rest stack (stack ▸ List.mem_append_right done hw) (by omega)
    have once := given.once
    rw [stack, List.nodup_append'] at once
    exact once.2.2 above hw
  rw [share, share, stack, List.filter_append, none, List.append_nil]

theorem absent {done rest : List Key} {v : Key} (stack : b.S = done ++ v :: rest) : v ∉ done := by
  have once := given.once
  rw [stack, List.nodup_append'] at once
  exact fun member => once.2.2 member List.mem_cons_self

/-- The stack loop. The dependencies of what is above the top are complete. -/
theorem foldl_stack (done rest : List Key) (stack : b.S = done ++ rest) {c : Sums}
    (sums : ∀ v, c.delta v = share b c.delta done v) {CB : Key → ℚ}
    (added : ∀ v, c.CB v = CB v + if v ∈ done then (credits b s v : ℚ) * c.delta v else 0) :
    let c' := rest.foldl (fun c v => (b.prev v).foldl (credit b s v) c) c
    Dependency b c'.delta ∧ ∀ v, c'.CB v = CB v + if v ∈ b.S then (credits b s v : ℚ) * c'.delta v else 0 := by
  induction rest generalizing done c with
  | nil =>
      rw [List.append_nil] at stack
      simp only [Dependency, stack]
      exact ⟨sums, added⟩
  | cons v rest ih =>
      have absent := given.absent stack
      have other : v ∉ b.prev v := fun member => by
        have step := ((given.prev v v).mp member).2.2
        omega
      obtain ⟨first, second⟩ := foldl_credit (b := b) (s := s) (b.prev v) (given.prev_once v) other c
      -- a predecessor of `v` is closer, so that it is not above it
      have kept : ∀ w, w = v ∨ w ∈ done → ((b.prev v).foldl (credit b s v) c).delta w = c.delta w := by
        intro w hw
        have outside : w ∉ b.prev v := by
          rintro member
          obtain ⟨reached, -, step⟩ := (given.prev w v).mp member
          rcases hw with rfl | hw
          · exact other member
          · obtain ⟨before, after, split⟩ := List.append_of_mem hw
            have above := given.below (w := v) before (after ++ v :: rest)
              (by rw [stack, split, List.append_assoc, List.cons_append]) (by simp [stack]) (by omega)
            exact absent (split ▸ List.mem_append_left _ above)
        rw [first, if_neg outside, add_zero]
      refine ih (done ++ [v]) (by rw [stack, List.append_assoc, List.singleton_append]) (fun u => ?_) fun w => ?_
      · have same : share b ((b.prev v).foldl (credit b s v) c).delta done u = share b c.delta done u := by
          refine congrArg List.sum (List.map_congr_left fun w hw => ?_)
          rw [kept w (.inr (List.mem_filter.mp hw).1)]
        rw [share_snoc, same, kept v (.inl rfl), first, sums]
      · rw [second, added]
        by_cases here : w = v
        · subst here
          simp [absent, credits, kept w (.inl rfl)]
        · by_cases member : w ∈ done
          · simp [here, member, kept w (.inr member)]
          · simp [here, member]

theorem backward (CB : Key → ℚ) : Dependency b (backward b s CB).delta ∧
    ∀ v, (backward b s CB).CB v =
      CB v + if v ∈ b.S then (credits b s v : ℚ) * (backward b s CB).delta v else 0 :=
  given.foldl_stack [] b.S rfl (by simp [share]) (by simp)

omit given in
/-- Induction on the stack, the farthest nodes first. -/
theorem induct {P : Key → Prop} (step : ∀ done v rest, b.S = done ++ v :: rest → (∀ w ∈ done, P w) → P v) :
    ∀ v ∈ b.S, P v := by
  have part : ∀ done rest, b.S = done ++ rest → ∀ v ∈ done, P v := by
    intro done
    induction done using List.reverseRecOn with
    | nil => simp
    | append_singleton done w ih =>
        intro rest stack v hv
        have stack' : b.S = done ++ w :: rest := by rw [stack, List.append_assoc, List.singleton_append]
        have above := ih (w :: rest) stack'
        rcases List.mem_append.mp hv with hv | hv
        · exact above v hv
        · exact List.mem_singleton.mp hv ▸ step done w rest stack' above
  exact part b.S [] (List.append_nil _).symm

omit given in
theorem share_congr {d d' : Key → ℚ} {ws : List Key} (same : ∀ w ∈ ws, d w = d' w) (v : Key) :
    share b d ws v = share b d' ws v := by
  refine congrArg List.sum (List.map_congr_left fun w hw => ?_)
  rw [same w (List.mem_filter.mp hw).1]

/-- There is one solution of the equations. -/
theorem unique {d d' : Key → ℚ} (solves : Dependency b d) (solves' : Dependency b d') : d = d' := by
  have same : ∀ v ∈ b.S, d v = d' v := by
    apply induct
    intro done v rest stack above
    rw [solves v, solves' v, given.share_complete stack, given.share_complete stack, share_congr above]
  funext v
  rw [solves v, solves' v, share_congr same]

section Solution

variable (solves : Dependency b delta)

include solves

theorem nonneg {v : Key} (hv : v ∈ b.S) : 0 ≤ delta v := by
  revert v
  apply induct
  intro done v rest stack above
  rw [solves v, given.share_complete stack]
  refine List.sum_nonneg fun x hx => ?_
  obtain ⟨w, hw, rfl⟩ := List.mem_map.mp hx
  have := above w (List.mem_filter.mp hw).1
  positivity

/-- A node on the way to another one has a positive dependency. -/
theorem pos {v w : Key} (pred : Pred next s v w) : 0 < delta v := by
  have reached : Reach next s w := pred.1.step pred.2.1
  have hw := (given.nodes w).mpr reached
  have first := given.sigma_pos pred.1
  have second := given.sigma_pos reached
  have third := given.nonneg solves hw
  have term : 0 < (b.sigma v : ℚ) / b.sigma w * (1 + delta w) := by positivity
  rw [solves v]
  refine term.trans_le (List.single_le_sum (fun x hx => ?_) _ ?_)
  · obtain ⟨y, hy, rfl⟩ := List.mem_map.mp hx
    have := given.nonneg solves (List.mem_filter.mp hy).1
    positivity
  · refine List.mem_map.mpr ⟨w, List.mem_filter.mpr ⟨hw, ?_⟩, rfl⟩
    simpa using (given.prev v w).mpr pred

omit given in
theorem zero {v : Key} (none : ∀ w ∈ b.S, v ∉ b.prev w) : delta v = 0 := by
  have empty : b.S.filter (fun w => v ∈ b.prev w) = [] :=
    List.filter_eq_nil_iff.mpr fun w hw => by simpa using none w hw
  rw [solves v, share, empty]
  rfl

end Solution

end Given

/-- Behind every node which is farther than 1 there is one at distance 1. -/
theorem pred_one {w : Key} (reached : Reach next s w) (far : 2 ≤ hop next s w) :
    ∃ v x, Pred next s v x ∧ hop next s v = 1 := by
  induction distance : hop next s w using Nat.strong_induction_on generalizing w with
  | _ n ih =>
      have away : w ≠ s := by
        rintro rfl
        rw [hop_self] at far
        omega
      obtain ⟨u, known, hw, step⟩ := hop_pred reached away
      by_cases one : hop next s u = 1
      · exact ⟨u, w, ⟨known, hw, step⟩, one⟩
      · exact ih _ (by omega) known (by omega) rfl

/-- In a tree there is one path to every node. -/
theorem Given.of_tree (exactly : Bc.Forward next s b) (tree : ∀ v ∈ b.S, (b.prev v).length ≤ 1) : Given next s b where
  toForward := exactly
  counts v reached := by
    have finite : {v | Reach next s v}.Finite :=
      (List.finite_toSet b.S).subset fun v reached => (exactly.nodes v).mpr reached
    have one : shortestPaths next s v = 1 := by
      induction distance : hop next s v using Nat.strong_induction_on generalizing v with
      | _ n ih =>
          have sum := shortestPaths_eq finite (exactly.prev_once v) fun u => exactly.prev u v
          have few := tree v ((exactly.nodes v).mpr reached)
          have positive := shortestPaths_pos finite reached
          by_cases here : v = s
          · exact here ▸ shortestPaths_self
          · rw [if_neg here] at sum
            cases preds : b.prev v with
            | nil =>
                rw [preds] at sum
                exact absurd sum.symm positive.ne'
            | cons u us =>
                obtain ⟨known, hv, step⟩ := (exactly.prev u v).mp (preds ▸ List.mem_cons_self)
                rw [preds] at few sum
                obtain rfl : us = [] := List.length_eq_zero_iff.mp (by simpa using few)
                rw [← sum, List.map_singleton, List.sum_singleton, Nat.zero_add]
                exact ih _ (by omega) u known rfl
    rw [exactly.sigma v reached, one]
    rfl

end Bc

open Bc

/-- What is added to `CB` are the dependencies just if every node which is reached is
    the source or a successor of it. -/
theorem backward_exact_iff (next : Key → List Key) (s : Key) (b : Bc) (given : Given next s b) (CB : Key → ℚ) :
    ∃ delta, (∀ d, Dependency b d ↔ d = delta) ∧
      ((∀ v, (backward b s CB).CB v = CB v + if v = s then 0 else delta v) ↔
        ∀ v, Reach next s v → v = s ∨ v ∈ next s) := by
  obtain ⟨solves, added⟩ := given.backward CB
  refine ⟨(backward b s CB).delta, fun d => ⟨fun other => given.unique other solves, fun same => same ▸ solves⟩,
    fun right v reached => ?_, fun near v => ?_⟩
  · by_contra far
    have distant : 2 ≤ hop next s v := by
      by_contra close
      have away : v ≠ s := fun same => far (.inl same)
      obtain ⟨u, known, hv, step⟩ := hop_pred reached away
      have first := hop_eq_zero known (by omega)
      exact far (.inr (first ▸ hv))
    obtain ⟨u, x, pred, one⟩ := pred_one reached distant
    have positive := given.pos solves pred
    have away : u ≠ s := by
      rintro rfl
      rw [hop_self] at one
      cases one
    -- the only predecessor of `u` is the source
    have none : credits b s u = 0 := by
      rw [credits, List.length_eq_zero_iff, List.filter_eq_nil_iff]
      intro p hp
      obtain ⟨known, -, step⟩ := (given.prev p u).mp hp
      simpa using hop_eq_zero known (by omega)
    have sum := (right u).symm.trans (added u)
    rw [if_neg away, none, if_pos ((given.nodes u).mpr pred.1)] at sum
    simp only [Nat.cast_zero, zero_mul, add_zero] at sum
    linarith
  · rw [added]
    congr 1
    by_cases here : v = s
    · subst here
      have none : credits b v v = 0 := by
        rw [credits, List.length_eq_zero_iff, List.filter_eq_nil_iff]
        exact fun p hp => absurd ((given.prev p v).mp hp) not_pred_self
      rw [none, if_pos rfl]
      simp
    · have zero := Given.zero solves (v := v) fun w hw member => by
        obtain ⟨known, -, step⟩ := (given.prev v w).mp member
        have positive : hop next s v ≠ 0 := fun zero => here (hop_eq_zero known zero)
        rcases near w ((given.nodes w).mp hw) with rfl | edge
        · rw [hop_self] at step
          omega
        · have short := hop_step reach_self edge
          rw [hop_self] at short
          omega
      rw [zero, if_neg here]
      simp

/-- A graph that holds some edges, none of which leads back to the source. -/
theorem Bc.Given.stored {es : List Edge} {b : Bc} {s : Key} {fuel : Nat} (inside : ∀ e ∈ es, IsId e.src ∧ IsId e.dst)
    (hs : IsId s) (noReturn : ∀ e ∈ es, e.dst ≠ s)
    (ended : forward ((insertEdges colliding (Memory.initial, Holemerge.fresh bl1 bl2 0 221) es).2.getNeighbors colliding
      (insertEdges colliding (Memory.initial, Holemerge.fresh bl1 bl2 0 221) es).1) fuel s = some b)
    (tree : ∀ v ∈ b.S, (b.prev v).length ≤ 1) :
    Given (ids ((insertEdges colliding (Memory.initial, Holemerge.fresh bl1 bl2 0 221) es).2.getNeighbors colliding
      (insertEdges colliding (Memory.initial, Holemerge.fresh bl1 bl2 0 221) es).1)) s b := by
  have listed := getNeighbors_insertEdges colliding default_sizes 0 221 fun e he => ⟨(inside e he).1.1, (inside e he).2.1⟩
  refine .of_tree (forward_right ?_ (fun u => (listed u).2.1) (fun u _ returns => ?_) ended) tree
  · exact (reach_stored (fun u d => ((listed u).2.2 d).mp) inside (.inr hs)).1
  · exact noReturn _ (((listed u).2.2 s).mp returns) rfl

/-- Two edges out of the source, and one between their ends. -/
theorem backward_exact_fork :
    let s := insertEdges colliding (Memory.initial, Holemerge.fresh bl1 bl2 0 221) [⟨1, 2⟩, ⟨1, 3⟩, ⟨2, 3⟩]
    ∃ b delta, forward (s.2.getNeighbors colliding s.1) 4 1 = some b ∧ Dependency b delta ∧
      ∀ v, (backward b 1 fun _ => 0).CB v = 0 + if v = 1 then 0 else delta v := by
  intro s
  have run : (forward (s.2.getNeighbors colliding s.1) 4 1).map (fun b => (b.S, [3, 2, 1].map fun v => (b.prev v).length)) =
      some ([3, 2, 1], [1, 1, 0]) := by decide +kernel
  obtain ⟨b, ended, same⟩ := Option.map_eq_some_iff.mp run
  obtain ⟨stack, few⟩ := Prod.mk.inj same
  simp only [List.map_cons, List.map_nil, List.cons.injEq, and_true] at few
  have given := Given.stored (by simp [IsId]) (by simp [IsId]) (by simp) ended (by simp [stack, few])
  obtain ⟨delta, solves, exactly⟩ := backward_exact_iff _ 1 b given fun _ => 0
  refine ⟨b, delta, ended, (solves delta).mpr rfl, exactly.mpr fun v reached => ?_⟩
  have member := (given.nodes v).mpr reached
  rw [stack] at member
  simp only [List.mem_cons, List.not_mem_nil, or_false] at member
  rcases member with rfl | rfl | rfl
  · exact .inr (by decide +kernel)
  · exact .inr (by decide +kernel)
  · exact .inl rfl

/-- Two edges in a row. The node between has dependency 1, and nothing is added for it. -/
theorem backward_misses :
    let s := insertEdges colliding (Memory.initial, Holemerge.fresh bl1 bl2 0 221) [⟨1, 2⟩, ⟨2, 3⟩]
    ∃ b delta, forward (s.2.getNeighbors colliding s.1) 4 1 = some b ∧
      Given (ids (s.2.getNeighbors colliding s.1)) 1 b ∧ Dependency b delta ∧ delta 2 = 1 ∧
      (backward b 1 fun _ => 0).CB 2 = 0 := by
  intro s
  have run : (forward (s.2.getNeighbors colliding s.1) 4 1).map (fun b => (b.S, ([3, 2, 1].map fun v => (b.prev v).length),
      (backward b 1 fun _ => 0).delta 2, (backward b 1 fun _ => 0).CB 2)) =
      some ([3, 2, 1], [1, 1, 0], 1, 0) := by decide +kernel
  obtain ⟨b, ended, same⟩ := Option.map_eq_some_iff.mp run
  simp only [Prod.mk.injEq, List.map_cons, List.map_nil, List.cons.injEq, and_true] at same
  obtain ⟨stack, few, one, none⟩ := same
  have given := Given.stored (by simp [IsId]) (by simp [IsId]) (by simp) ended (by simp [stack, few])
  exact ⟨b, _, ended, given, (given.backward _).1, one, none⟩

end CuckooGraph
