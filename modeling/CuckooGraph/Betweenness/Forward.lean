import CuckooGraph.Betweenness
import CuckooGraph.Bfs

/-! # The forward phase

A node enters the queue when its distance becomes positive, so that the source can
enter it a second time, and does if it is the successor of a node which is reached.
If it is not, the search is the one of `BreadthFirst`.
-/

namespace CuckooGraph

open BreadthFirst

namespace Bc

/-- The forward data of the source `s`. -/
structure Forward (next : Key → List Key) (s : Key) (b : Bc) : Prop where
  once : b.S.Nodup
  nodes : ∀ v, v ∈ b.S ↔ Reach next s v
  sorted : b.S.reverse.Pairwise fun u v => hop next s u ≤ hop next s v
  dist : ∀ v, Reach next s v → b.dist v = hop next s v
  sigma : ∀ v, Reach next s v → b.sigma v = shortestPaths next s v % 2 ^ 64
  prev_once : ∀ v, (b.prev v).Nodup
  prev : ∀ u v, u ∈ b.prev v ↔ Pred next s u v

section Scan

variable {u : Key} {b : Bc}

theorem visit_marks (u : Key) (b : Bc) (x v : Key) : (b.visit u x).dist v ≠ 0 ↔ v = x ∨ b.dist v ≠ 0 := by
  by_cases zero : b.dist x = 0
  · have same : (b.visit u x).dist v = Function.update b.dist x (b.dist u + 1) v := by
      simp only [visit, if_pos zero]
      split <;> rfl
    rw [same]
    by_cases here : v = x <;> simp [here]
  · have same : (b.visit u x).dist = b.dist := by
      simp only [visit, if_neg zero]
      split <;> rfl
    rw [same]
    by_cases here : v = x <;> simp [here, zero]

theorem visit_queue (u : Key) : Appends id (fun b v => b.dist v ≠ 0) (visit u) Bc.Q := by
  intro b x
  by_cases zero : b.dist x = 0
  · refine ⟨fun old => absurd zero old, fun _ => ?_⟩
    simp only [visit, if_pos zero]
    split <;> rfl
  · refine ⟨fun _ => ?_, fun new => absurd zero new⟩
    simp only [visit, if_neg zero]
    split <;> rfl

theorem foldl_stack (vs : List Key) (b : Bc) : (vs.foldl (visit u) b).S = b.S := by
  induction vs generalizing b with
  | nil => rfl
  | cons x vs ih =>
      have kept : (b.visit u x).S = b.S := by
        simp only [visit]
        split <;> split <;> rfl
      rw [List.foldl_cons, ih, kept]

/-- What a scan of neighbours puts into the queue. -/
theorem foldl_visit (vs : List Key) (b : Bc) : ∃ fresh : List Key, fresh.Nodup ∧
    (∀ v, v ∈ fresh ↔ v ∈ vs ∧ b.dist v = 0) ∧ (vs.foldl (visit u) b).Q = b.Q ++ fresh ∧
    (vs.foldl (visit u) b).S = b.S ∧
    ∀ v, (vs.foldl (visit u) b).dist v ≠ 0 ↔ b.dist v ≠ 0 ∨ v ∈ fresh := by
  obtain ⟨fresh, once, members, seen, logs⟩ := scan_fresh id (fun b v => Bc.dist b v ≠ 0) (visit u) (visit_marks u) vs b
  refine ⟨fresh, once, fun v => ?_, logs Bc.Q (visit_queue u), foldl_stack vs b, seen⟩
  rw [members, List.map_id, not_not]

/-- The neighbour is one step farther than `u`, or new. -/
def Next (b : Bc) (u v : Key) : Prop := b.dist v = 0 ∨ b.dist v = b.dist u + 1

instance (b : Bc) (u v : Key) : Decidable (b.Next u v) := inferInstanceAs (Decidable (_ ∨ _))

theorem visit_maps {x : Key} (stays : x = u → b.dist u ≠ 0) :
    (b.visit u x).dist = Function.update b.dist x (if b.dist x = 0 then b.dist u + 1 else b.dist x) ∧
      (b.visit u x).prev = Function.update b.prev x (if b.Next u x then b.prev x ++ [u] else b.prev x) ∧
      (b.visit u x).sigma =
        Function.update b.sigma x (if b.Next u x then (b.sigma x + b.sigma u) % 2 ^ 64 else b.sigma x) := by
  by_cases zero : b.dist x = 0
  · have other : u ≠ x := fun same => stays same.symm (same ▸ zero)
    simp [visit, Next, zero, Function.update_of_ne other]
  · by_cases far : b.dist x = b.dist u + 1
    · simp [visit, Next, far]
    · simp [visit, Next, zero, far]

/-- What a scan of neighbours does to the maps if the distance of `u` stays. -/
theorem foldl_visit_maps (vs : List Key) (once : vs.Nodup) (b : Bc) (stays : u ∈ vs → b.dist u ≠ 0) :
    (∀ v, (vs.foldl (visit u) b).dist v = if v ∈ vs ∧ b.dist v = 0 then b.dist u + 1 else b.dist v) ∧
      (∀ v, (vs.foldl (visit u) b).prev v = if v ∈ vs ∧ b.Next u v then b.prev v ++ [u] else b.prev v) ∧
      ∀ v, (vs.foldl (visit u) b).sigma v =
        if v ∈ vs ∧ b.Next u v then (b.sigma v + b.sigma u) % 2 ^ 64 else b.sigma v := by
  induction vs generalizing b with
  | nil => simp
  | cons x vs ih =>
      obtain ⟨fresh, once⟩ := List.nodup_cons.mp once
      have stays' : x = u → b.dist u ≠ 0 := fun same => stays (same ▸ List.mem_cons_self)
      obtain ⟨dist, prev, sigma⟩ := visit_maps stays'
      have dist_u : (b.visit u x).dist u = b.dist u := by
        by_cases same : u = x
        · rw [dist, ← same, Function.update_self, if_neg (stays' same.symm)]
        · rw [dist, Function.update_of_ne same]
      have sigma_u : (b.visit u x).sigma u = b.sigma u := by
        by_cases same : u = x
        · have far : ¬ b.Next u u := by
            rintro (zero | far)
            · exact stays' same.symm zero
            · omega
          rw [sigma, ← same, Function.update_self, if_neg far]
        · rw [sigma, Function.update_of_ne same]
      have rest := ih once (b.visit u x) fun hu => dist_u.symm ▸ stays (List.mem_cons_of_mem x hu)
      simp only [Next, dist_u, sigma_u] at rest
      rw [List.foldl_cons]
      refine ⟨fun v => ?_, fun v => ?_, fun v => ?_⟩
      · rw [rest.1, dist]
        by_cases here : v = x
        · subst here
          simp [fresh]
        · simp [here]
      · rw [rest.2.1, dist, prev]
        by_cases here : v = x
        · subst here
          simp [fresh]
        · simp [here, Next]
      · rw [rest.2.2, dist, sigma]
        by_cases here : v = x
        · subst here
          simp [fresh]
        · simp [here, Next]

end Scan

variable {neighbors : Key → List (Key × Nat)} {s : Key} {done pushed : List Key} {b : Bc}

/-- The ids which are listed. -/
abbrev ids (neighbors : Key → List (Key × Nat)) (u : Key) : List Key := (neighbors u).map Prod.fst

/-- What holds of every run: the nodes but the first enter the queue once. -/
structure Pushed (neighbors : Key → List (Key × Nat)) (s : Key) (done pushed : List Key) (b : Bc) : Prop where
  order : s :: pushed = done ++ b.Q
  stack : b.S = done.reverse
  once : pushed.Nodup
  seen : ∀ v, b.dist v ≠ 0 ↔ v ∈ pushed
  reached : ∀ v ∈ pushed, Reach (ids neighbors) s v
  closed : ∀ u ∈ done, ∀ v ∈ ids neighbors u, v ∈ pushed

theorem pushed_start : Pushed neighbors s [] [] (start s) where
  order := rfl
  stack := rfl
  once := List.nodup_nil
  seen v := by simp [start]
  reached := by simp
  closed := by simp

theorem Pushed.pass {u : Key} {Q : List Key} (run : Pushed neighbors s done pushed b) (queue : b.Q = u :: Q) :
    ∃ fresh, Pushed neighbors s (done ++ [u]) (pushed ++ fresh) (b.pass neighbors) := by
  obtain ⟨fresh, once, members, queue', stack, seen⟩ := foldl_visit (u := u) (ids neighbors u)
    { b with Q := Q, S := u :: b.S }
  have passed : b.pass neighbors = (ids neighbors u).foldl (visit u) { b with Q := Q, S := u :: b.S } := by
    simp only [Bc.pass, queue]
  rw [← passed] at queue' stack seen
  have order := run.order
  rw [queue] at order
  have reached : Reach (ids neighbors) s u := by
    have member : u ∈ s :: pushed := order ▸ by simp
    rcases List.mem_cons.mp member with rfl | hu
    · exact reach_self
    · exact run.reached u hu
  have new : ∀ v, b.dist v = 0 ↔ v ∉ pushed := fun v => by rw [← run.seen v, not_not]
  refine ⟨fresh, ?_⟩
  constructor
  case order => rw [queue', ← List.cons_append, order, List.append_assoc, List.append_assoc]; rfl
  case stack => rw [stack, run.stack, List.reverse_append]; rfl
  case once =>
    rw [List.nodup_append']
    exact ⟨run.once, once, fun v hv hv' => (new v).mp ((members v).mp hv').2 hv⟩
  case seen =>
    intro v
    rw [seen, List.mem_append, ← run.seen v]
  case reached =>
    intro v hv
    rcases List.mem_append.mp hv with hv | hv
    · exact run.reached v hv
    · exact reached.step ((members v).mp hv).1
  case closed =>
    intro x hx v hv
    by_cases member : v ∈ pushed
    · exact List.mem_append_left _ member
    · rcases List.mem_append.mp hx with hx | hx
      · exact absurd (run.closed x hx v hv) member
      · rw [List.mem_singleton.mp hx] at hv
        exact List.mem_append_right _ ((members v).mpr ⟨hv, (new v).mpr member⟩)

/-- The queue loop ends. -/
theorem forward_ends (finite : {v | Reach (ids neighbors) s v}.Finite) : ∃ b done pushed,
    (∀ fuel, {v | Reach (ids neighbors) s v}.ncard + 1 ≤ fuel → forward neighbors fuel s = some b) ∧
      Pushed neighbors s done pushed b ∧ b.Q = [] := by
  have keep : ∀ b : Bc, (!b.Q.isEmpty) = true → True → (∃ done pushed, Pushed neighbors s done pushed b) →
      ∃ done pushed, Pushed neighbors s done pushed (b.pass neighbors) := by
    rintro b more - ⟨done, pushed, run⟩
    cases queue : b.Q with
    | nil => simp [queue] at more
    | cons u Q =>
        obtain ⟨fresh, next⟩ := run.pass queue
        exact ⟨_, _, next⟩
  have bound : ∀ {done pushed b}, Pushed neighbors s done pushed b →
      b.S.length + b.Q.length ≤ {v | Reach (ids neighbors) s v}.ncard + 1 := by
    intro done pushed b run
    have order := congrArg List.length run.order
    have few : pushed.length ≤ {v | Reach (ids neighbors) s v}.ncard := by
      rw [← List.toFinset_card_of_nodup run.once, ← Set.ncard_coe_finset]
      exact Set.ncard_le_ncard (fun v hv => run.reached v (by simpa using hv)) finite
    rw [run.stack, List.length_reverse]
    rw [List.length_append, List.length_cons] at order
    omega
  have less : ∀ b : Bc, (!b.Q.isEmpty) = true → True → (∃ done pushed, Pushed neighbors s done pushed b) →
      {v | Reach (ids neighbors) s v}.ncard + 1 - (b.pass neighbors).S.length <
        {v | Reach (ids neighbors) s v}.ncard + 1 - b.S.length := by
    rintro b more - ⟨done, pushed, run⟩
    cases queue : b.Q with
    | nil => simp [queue] at more
    | cons u Q =>
        obtain ⟨fresh, next⟩ := run.pass queue
        have room := bound run
        rw [next.stack]
        rw [queue, List.length_cons, run.stack] at room
        rw [run.stack]
        simp only [List.length_reverse, List.length_append, List.length_singleton] at room ⊢
        omega
  obtain ⟨b, ended⟩ := Loop.run_ends (fun b : Bc => {v | Reach (ids neighbors) s v}.ncard + 1 - b.S.length) keep less
    (Nat.sub_le ..) (Loop.each_of_all (fun _ => trivial) _ _) ⟨[], [], pushed_start⟩
  obtain ⟨done, pushed, run⟩ := Loop.run_inv keep (Loop.each_of_all (fun _ => trivial) _ _)
    ⟨[], [], pushed_start⟩ ended
  exact ⟨b, done, pushed, fun fuel enough => Loop.run_more ended enough, run, by simpa using Loop.run_exit ended⟩

/-- At the end everything reached has been on the queue. -/
theorem Pushed.all (run : Pushed neighbors s done pushed b) (empty : b.Q = []) {v : Key}
    (reached : Reach (ids neighbors) s v) : v ∈ done := by
  have order := run.order
  rw [empty, List.append_nil] at order
  obtain ⟨n, walk⟩ := reached
  induction walk with
  | here => exact order ▸ List.mem_cons_self
  | step _ last ih => exact order ▸ List.mem_cons_of_mem s (run.closed _ ih _ last.2)

section NoReturn

/-- The predecessors of `v` among the nodes taken out of the queue. -/
noncomputable def preds (next : Key → List Key) (s : Key) (done : List Key) (v : Key) : List Key :=
  done.filter fun u => v ∈ next u ∧ hop next s v = hop next s u + 1

/-- What holds if the source is the successor of no node which is reached. -/
structure Searched (neighbors : Key → List (Key × Nat)) (s : Key) (done : List Key) (b : Bc) : Prop where
  found : Found (ids neighbors) s done b.Q
  stack : b.S = done.reverse
  dist : ∀ v, b.dist v = if v ∈ done ++ b.Q then hop (ids neighbors) s v else 0
  prev : ∀ v, b.prev v = preds (ids neighbors) s done v
  sigma : ∀ v, b.sigma v =
    ((if v = s then 1 else 0) + ((b.prev v).map (shortestPaths (ids neighbors) s)).sum) % 2 ^ 64

theorem searched_start : Searched neighbors s [] (start s) where
  found := found_start
  stack := rfl
  dist v := by
    by_cases here : v = s
    · simp [start, here, hop_self]
    · simp [start, here]
  prev v := rfl
  sigma v := by
    by_cases here : v = s <;> simp [start, here]

theorem mem_preds {next : Key → List Key} {u v : Key} {Q : List Key} (found : Found next s done (v :: Q)) :
    u ∈ preds next s done v ↔ Pred next s u v := by
  simp only [preds, List.mem_filter, decide_eq_true_eq]
  constructor
  · exact fun ⟨hu, hv, step⟩ => ⟨found.reached u (List.mem_append_left _ hu), hv, step⟩
  · exact fun ⟨reached, hv, step⟩ => ⟨found.closer reached (by omega), hv, step⟩

section Out

variable {u : Key} {Q : List Key}

theorem Searched.out (searched : Searched neighbors s done b) (queue : b.Q = u :: Q) :
    Found (ids neighbors) s done (u :: Q) ∧
      ∀ v, b.dist v = if v ∈ done ++ u :: Q then hop (ids neighbors) s v else 0 := by
  rw [← queue]
  exact ⟨searched.found, searched.dist⟩

/-- A neighbour which is 0 in `dist` has not been found. -/
theorem Searched.unseen (noReturn : ∀ u, Reach (ids neighbors) s u → s ∉ ids neighbors u)
    (searched : Searched neighbors s done b) (queue : b.Q = u :: Q) {v : Key} (hv : v ∈ ids neighbors u) :
    b.dist v = 0 ↔ v ∉ done ++ u :: Q := by
  obtain ⟨found, dist⟩ := searched.out queue
  rw [dist]
  constructor
  · intro zero member
    rw [if_pos member] at zero
    have source := hop_eq_zero (found.reached v member) zero
    exact noReturn u (found.reached u (by simp)) (source ▸ hv)
  · exact fun absent => if_neg absent

theorem Searched.next_iff (noReturn : ∀ u, Reach (ids neighbors) s u → s ∉ ids neighbors u)
    (searched : Searched neighbors s done b) (queue : b.Q = u :: Q) {v : Key} (hv : v ∈ ids neighbors u) :
    b.Next u v ↔ hop (ids neighbors) s v = hop (ids neighbors) s u + 1 := by
  obtain ⟨found, dist⟩ := searched.out queue
  by_cases member : v ∈ done ++ u :: Q
  · have positive : b.dist v ≠ 0 := fun zero => (searched.unseen noReturn queue hv).mp zero member
    rw [Next, or_iff_right positive, dist u, dist v, if_pos member, if_pos (by simp)]
  · exact iff_of_true (.inl ((searched.unseen noReturn queue hv).mpr member)) (found.hop_fresh hv member)

end Out

variable (finite : {v | Reach (ids neighbors) s v}.Finite)

include finite

/-- When a node is taken out of the queue its paths are counted. -/
theorem Searched.counted {u : Key} {Q : List Key} (searched : Searched neighbors s done b) (queue : b.Q = u :: Q) :
    b.sigma u = shortestPaths (ids neighbors) s u % 2 ^ 64 := by
  have found := (searched.out queue).1
  have complete : ∀ p, p ∈ b.prev u ↔ Pred (ids neighbors) s p u := fun p => by
    rw [searched.prev, mem_preds found]
  have once : (b.prev u).Nodup := by
    rw [searched.prev]
    exact (List.nodup_append'.mp found.nodup).1.filter _
  rw [searched.sigma, shortestPaths_eq finite once complete]

theorem Searched.pass (distinct : ∀ u, (ids neighbors u).Nodup)
    (noReturn : ∀ u, Reach (ids neighbors) s u → s ∉ ids neighbors u) {u : Key} {Q : List Key}
    (searched : Searched neighbors s done b) (queue : b.Q = u :: Q) :
    Searched neighbors s (done ++ [u]) (b.pass neighbors) := by
  obtain ⟨found, dist⟩ := searched.out queue
  have passed : b.pass neighbors = (ids neighbors u).foldl (visit u) { b with Q := Q, S := u :: b.S } := by
    simp only [Bc.pass, queue]
  have dist_u : b.dist u = hop (ids neighbors) s u := by rw [dist, if_pos (by simp)]
  have new : ∀ v ∈ ids neighbors u, b.dist v = 0 ↔ v ∉ done ++ u :: Q := fun v hv => searched.unseen noReturn queue hv
  have stays : u ∈ ids neighbors u → b.dist u ≠ 0 := fun hu zero => (new u hu).mp zero (by simp)
  obtain ⟨fresh, once, members, queue', stack, -⟩ := foldl_visit (u := u) (ids neighbors u)
    { b with Q := Q, S := u :: b.S }
  obtain ⟨dist', prev', sigma'⟩ := foldl_visit_maps (ids neighbors u) (distinct u)
    { b with Q := Q, S := u :: b.S } stays
  rw [← passed] at queue' stack dist' prev' sigma'
  have members : ∀ v, v ∈ fresh ↔ v ∈ ids neighbors u ∧ v ∉ done ++ u :: Q := fun v =>
    (members v).trans (and_congr_right fun hv => new v hv)
  have grown : ∀ v, (b.pass neighbors).prev v = b.prev v ++ if v ∈ ids neighbors u ∧ b.Next u v then [u] else [] := by
    intro v
    rw [prev']
    by_cases next : v ∈ ids neighbors u ∧ b.Next u v
    · rw [if_pos next]
      exact if_pos next
    · rw [if_neg next, List.append_nil]
      exact if_neg next
  have same : (done ++ [u]) ++ (Q ++ fresh) = (done ++ u :: Q) ++ fresh := by simp
  constructor
  case found =>
    rw [queue']
    exact found.pop once members
  case stack => rw [stack, searched.stack, List.reverse_append]; rfl
  case dist =>
    intro v
    rw [dist', queue', same]
    by_cases hv : v ∈ fresh
    · obtain ⟨listed, absent⟩ := (members v).mp hv
      rw [if_pos (List.mem_append_right _ hv), if_pos ⟨listed, (new v listed).mpr absent⟩, found.hop_fresh listed absent]
      exact congrArg (· + 1) dist_u
    · have old : ¬ (v ∈ ids neighbors u ∧ b.dist v = 0) := fun ⟨listed, zero⟩ =>
        hv ((members v).mpr ⟨listed, (new v listed).mp zero⟩)
      refine (if_neg old).trans ((dist v).trans ?_)
      simp only [List.mem_append, hv, or_false]
  case prev =>
    intro v
    rw [grown, searched.prev, preds, preds, List.filter_append]
    congr 1
    by_cases hv : v ∈ ids neighbors u
    · simp [hv, searched.next_iff noReturn queue hv, List.filter_cons]
    · simp [hv]
  case sigma =>
    intro v
    rw [grown, sigma']
    by_cases next : v ∈ ids neighbors u ∧ b.Next u v
    · rw [if_pos next]
      refine (if_pos next).trans ?_
      change (b.sigma v + b.sigma u) % 2 ^ 64 = _
      rw [searched.sigma v, searched.counted finite queue, ← Nat.add_mod, List.map_append, List.sum_append, ← Nat.add_assoc]
      simp
    · rw [if_neg next, List.append_nil, ← searched.sigma v]
      exact if_neg next

/-- At the end the data are exact. -/
theorem Searched.forward (searched : Searched neighbors s done b) (empty : b.Q = []) :
    Bc.Forward (ids neighbors) s b := by
  have found := searched.found
  rw [empty] at found
  have order : b.S.reverse = done := by rw [searched.stack, List.reverse_reverse]
  have all : ∀ v, v ∈ done ↔ Reach (ids neighbors) s v := fun v => found.complete
  have prev : ∀ u v, u ∈ b.prev v ↔ Pred (ids neighbors) s u v := by
    intro u v
    simp only [searched.prev, preds, List.mem_filter, decide_eq_true_eq, all]
    rfl
  have once : ∀ v, (b.prev v).Nodup := fun v => by
    rw [searched.prev]
    exact (List.nodup_append'.mp found.nodup).1.filter _
  constructor
  case once => rw [searched.stack, List.nodup_reverse]; simpa using found.nodup
  case nodes =>
    intro v
    rw [searched.stack, List.mem_reverse, all]
  case sorted => rw [order]; simpa using found.sorted
  case dist =>
    intro v reached
    rw [searched.dist, empty, List.append_nil, if_pos ((all v).mpr reached)]
  case sigma =>
    intro v _
    rw [searched.sigma]
    rw [shortestPaths_eq finite (once v) fun u => prev u v]
  case prev_once => exact once
  case prev => exact prev

/-- The queue loop without a return to the source. -/
theorem forward_right (distinct : ∀ u, (ids neighbors u).Nodup)
    (noReturn : ∀ u, Reach (ids neighbors) s u → s ∉ ids neighbors u) {fuel : Nat}
    (ended : forward neighbors fuel s = some b) : Bc.Forward (ids neighbors) s b := by
  have keep : ∀ b : Bc, (!b.Q.isEmpty) = true → True → (∃ done, Searched neighbors s done b) →
      ∃ done, Searched neighbors s done (b.pass neighbors) := by
    rintro b more - ⟨done, searched⟩
    cases queue : b.Q with
    | nil => simp [queue] at more
    | cons u Q => exact ⟨_, searched.pass finite distinct noReturn queue⟩
  obtain ⟨done, searched⟩ := Loop.run_inv keep (Loop.each_of_all (fun _ => trivial) _ _) ⟨[], searched_start⟩ ended
  exact searched.forward finite (by simpa using Loop.run_exit ended)

end NoReturn

end Bc

open Bc

/-- The forward data are exact just if the source is the successor of no node which is reached. -/
theorem forward_exact_iff (neighbors : Key → List (Key × Nat)) (distinct : ∀ u, ((neighbors u).map Prod.fst).Nodup)
    (s : Key) (finite : {v | Reach (fun u => (neighbors u).map Prod.fst) s v}.Finite) :
    let next := fun u => (neighbors u).map Prod.fst
    ∃ b, (∀ fuel, {v | Reach next s v}.ncard + 1 ≤ fuel → forward neighbors fuel s = some b) ∧
      (Bc.Forward next s b ↔ ∀ u, Reach next s u → s ∉ next u) := by
  intro next
  obtain ⟨b, done, pushed, ends, run, empty⟩ := forward_ends finite
  refine ⟨b, ends, fun exactly u reached returns => ?_, fun noReturn => ?_⟩
  · -- the source has entered the queue again
    have seen := (run.seen s).mpr (run.closed u (run.all empty reached) s returns)
    rw [exactly.dist s reach_self, hop_self] at seen
    exact seen rfl
  · exact forward_right finite distinct noReturn (ends _ le_rfl)

/-- Two edges out of the source. -/
theorem forward_exact_star :
    let s := insertEdges colliding (Memory.initial, Holemerge.fresh bl1 bl2 0 221) [⟨1, 2⟩, ⟨1, 3⟩]
    ∃ fuel b, forward (s.2.getNeighbors colliding s.1) fuel 1 = some b ∧
      Bc.Forward (ids (s.2.getNeighbors colliding s.1)) 1 b := by
  have listed := getNeighbors_insertEdges colliding default_sizes 0 221
    (by decide : ∀ e ∈ [(⟨1, 2⟩ : Edge), ⟨1, 3⟩], e.src ≠ 0 ∧ e.dst ≠ 0)
  obtain ⟨b, ends, exactly⟩ := forward_exact_iff _ (fun u => (listed u).2.1) 1
    (reach_stored (fun u d => ((listed u).2.2 d).mp) (by simp [IsId]) (.inr (by simp [IsId] : IsId 1))).1
  refine ⟨_, b, ends _ le_rfl, exactly.mpr fun u _ returns => ?_⟩
  have edge := ((listed u).2.2 1).mp returns
  simp at edge

/-- The source is the successor of its successor. It enters the queue again, with
    distance 2. -/
theorem forward_returns :
    let s := insertEdges colliding (Memory.initial, Holemerge.fresh bl1 bl2 0 221) [⟨1, 2⟩, ⟨2, 1⟩]
    (forward (s.2.getNeighbors colliding s.1) 3 1).map (fun b => (b.dist 1, b.S)) = some (2, [1, 2, 1]) ∧
      ∃ b, forward (s.2.getNeighbors colliding s.1) 3 1 = some b ∧
        ¬ Bc.Forward (ids (s.2.getNeighbors colliding s.1)) 1 b := by
  intro s
  have twice : (forward (s.2.getNeighbors colliding s.1) 3 1).map (fun b => (b.dist 1, b.S)) = some (2, [1, 2, 1]) := by
    decide +kernel
  refine ⟨twice, ?_⟩
  obtain ⟨b, done, same⟩ := Option.map_eq_some_iff.mp twice
  refine ⟨b, done, fun exactly => ?_⟩
  have zero := exactly.dist 1 reach_self
  rw [hop_self, (Prod.mk.inj same).1] at zero
  cases zero

end CuckooGraph
