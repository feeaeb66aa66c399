import CuckooGraph.Counting
import CuckooGraph.Distances
import Mathlib.Data.Set.Card

/-! # Breadth first search

The nodes found so far are those which were taken out of the queue, in this
order, and then the queue. They are sorted by distance, the distances in the queue
differ by at most 1, and the successors of what was taken out are among them: so a
successor found only now is one step farther than the node just taken out.
-/

namespace BreadthFirst

open Distances

variable {V : Type} (next : V → List V) (s : V)

/-- Every edge has length 1. -/
def Edge (a : V) (c : Nat) (b : V) : Prop := c = 1 ∧ b ∈ next a

def Reach (v : V) : Prop := ∃ n, Walk (Edge next) s n v

/-- The distance of a node which is reached. -/
noncomputable def hop (v : V) : Nat := sInf {n | Walk (Edge next) s n v}

variable {next s}

theorem reach_self : Reach next s s := ⟨0, .here⟩

theorem Reach.step {u v : V} (reached : Reach next s u) (hv : v ∈ next u) : Reach next s v := by
  obtain ⟨n, walk⟩ := reached
  exact ⟨n + 1, walk.step ⟨rfl, hv⟩⟩

theorem reach_iff {v : V} : Reach next s v ↔ Relation.ReflTransGen (fun u v => v ∈ next u) s v := by
  constructor
  · rintro ⟨n, walk⟩
    induction walk with
    | here => exact .refl
    | step _ last ih => exact ih.tail last.2
  · intro path
    induction path with
    | refl => exact reach_self
    | tail _ last ih => exact ih.step last

theorem hop_le {n : Nat} {v : V} (walk : Walk (Edge next) s n v) : hop next s v ≤ n := Nat.sInf_le walk

theorem hop_walk {v : V} (reached : Reach next s v) : Walk (Edge next) s (hop next s v) v := Nat.sInf_mem reached

theorem hop_self : hop next s s = 0 := Nat.le_zero.mp (hop_le .here)

theorem hop_step {u v : V} (reached : Reach next s u) (hv : v ∈ next u) : hop next s v ≤ hop next s u + 1 :=
  hop_le ((hop_walk reached).step ⟨rfl, hv⟩)

/-- A node has a predecessor which is one step closer. -/
theorem hop_pred {v : V} (reached : Reach next s v) (away : v ≠ s) :
    ∃ u, Reach next s u ∧ v ∈ next u ∧ hop next s v = hop next s u + 1 := by
  generalize length : hop next s v = n
  have walk := hop_walk reached
  rw [length] at walk
  cases walk with
  | here => exact absurd rfl away
  | @step n c u _ walk last =>
      obtain ⟨rfl, hv⟩ := last
      have reached : Reach next s u := ⟨n, walk⟩
      have short := hop_le walk
      have long := hop_step reached hv
      exact ⟨u, reached, hv, by omega⟩

theorem hop_eq_zero {v : V} (reached : Reach next s v) (zero : hop next s v = 0) : v = s := by
  by_contra away
  obtain ⟨u, -, -, one⟩ := hop_pred reached away
  omega

/-- What is found while `queue` is left. -/
structure Found (next : V → List V) (s : V) (done queue : List V) : Prop where
  source : s ∈ done ++ queue
  nodup : (done ++ queue).Nodup
  reached : ∀ v ∈ done ++ queue, Reach next s v
  sorted : (done ++ queue).Pairwise fun a b => hop next s a ≤ hop next s b
  closed : ∀ u ∈ done, ∀ v ∈ next u, v ∈ done ++ queue
  level : ∀ u ∈ queue.head?, ∀ v ∈ queue, hop next s v ≤ hop next s u + 1

theorem found_start : Found next s [] [s] where
  source := List.mem_singleton_self s
  nodup := List.nodup_singleton s
  reached := by simp [reach_self]
  sorted := List.pairwise_singleton _ s
  closed := by simp
  level := by simp

namespace Found

variable {done queue rest fresh : List V} {u v : V}

/-- At the end all nodes are found. -/
theorem complete (found : Found next s done []) : v ∈ done ↔ Reach next s v := by
  have all : ∀ n v, Walk (Edge next) s n v → v ∈ done := by
    intro n v walk
    induction walk with
    | here => simpa using found.source
    | step _ last ih => simpa using found.closed _ ih _ last.2
  constructor
  · intro hv
    exact found.reached v (by simpa using hv)
  · rintro ⟨n, walk⟩
    exact all n v walk

/-- Whatever is closer than the head of the queue has been taken out of it. -/
theorem closer (found : Found next s done (u :: rest)) (reached : Reach next s v)
    (less : hop next s v < hop next s u) : v ∈ done := by
  -- by induction on the distance, over the closer predecessors
  induction distance : hop next s v using Nat.strong_induction_on generalizing v with
  | _ n ih =>
      have member : v ∈ done ++ u :: rest := by
        by_cases away : v = s
        · exact away ▸ found.source
        · obtain ⟨p, known, hv, step⟩ := hop_pred reached away
          exact found.closed p (ih _ (by omega) known (by omega) rfl) v hv
      rcases List.mem_append.mp member with hv | hv
      · exact hv
      · rcases List.mem_cons.mp hv with rfl | hv
        · omega
        · have order := (List.pairwise_append.mp found.sorted).2.1
          have low := (List.pairwise_cons.mp order).1 v hv
          omega

/-- A successor which is new is one step farther. -/
theorem hop_fresh (found : Found next s done (u :: rest)) (hv : v ∈ next u) (new : v ∉ done ++ u :: rest) :
    hop next s v = hop next s u + 1 := by
  have reached := found.reached u (by simp)
  have high := hop_step reached hv
  by_contra low
  have away : v ≠ s := fun same => new (same ▸ found.source)
  obtain ⟨p, known, hv', step⟩ := hop_pred (reached.step hv) away
  exact new (found.closed p (found.closer known (by omega)) v hv')

/-- The head of the queue is taken out, and its successors which are new are put in. -/
theorem pop (found : Found next s done (u :: rest)) (once : fresh.Nodup)
    (new : ∀ v, v ∈ fresh ↔ v ∈ next u ∧ v ∉ done ++ u :: rest) : Found next s (done ++ [u]) (rest ++ fresh) := by
  have same : (done ++ [u]) ++ (rest ++ fresh) = (done ++ u :: rest) ++ fresh := by simp
  have far : ∀ v ∈ fresh, hop next s v = hop next s u + 1 := fun v hv =>
    found.hop_fresh ((new v).mp hv).1 ((new v).mp hv).2
  have near : ∀ v ∈ done ++ u :: rest, hop next s v ≤ hop next s u + 1 := by
    intro v hv
    rcases List.mem_append.mp hv with hv | hv
    · have order := (List.pairwise_append.mp found.sorted).2.2 v hv u List.mem_cons_self
      omega
    · exact found.level u rfl v hv
  have reached := found.reached u (by simp)
  constructor
  case source =>
    rw [same]
    exact List.mem_append_left _ found.source
  case nodup =>
    rw [same, List.nodup_append']
    exact ⟨found.nodup, once, fun v hv hv' => ((new v).mp hv').2 hv⟩
  case reached =>
    intro v hv
    rw [same] at hv
    rcases List.mem_append.mp hv with hv | hv
    · exact found.reached v hv
    · exact reached.step ((new v).mp hv).1
  case sorted =>
    rw [same, List.pairwise_append]
    refine ⟨found.sorted, List.pairwise_of_forall_mem_list fun a ha b hb => ?_, fun a ha b hb => ?_⟩
    · rw [far a ha, far b hb]
    · rw [far b hb]
      exact near a ha
  case closed =>
    intro x hx v hv
    rw [same]
    by_cases member : v ∈ done ++ u :: rest
    · exact List.mem_append_left _ member
    · rcases List.mem_append.mp hx with hx | hx
      · exact absurd (found.closed x hx v hv) member
      · rw [List.mem_singleton.mp hx] at hv
        exact List.mem_append_right _ ((new v).mpr ⟨hv, member⟩)
  case level =>
    intro h head v hv
    -- the new head is no closer than the old one
    have low : hop next s u ≤ hop next s h := by
      rcases List.mem_append.mp (List.mem_of_mem_head? head) with hh | hh
      · exact (List.pairwise_cons.mp (List.pairwise_append.mp found.sorted).2.1).1 h hh
      · rw [far h hh]
        exact Nat.le_succ _
    rcases List.mem_append.mp hv with hv | hv
    · have bound := near v (List.mem_append_right _ (List.mem_cons_of_mem u hv))
      omega
    · rw [far v hv]
      omega

/-- No more nodes are found than there are. -/
theorem length_le (found : Found next s done queue) (finite : {v | Reach next s v}.Finite) :
    (done ++ queue).length ≤ {v | Reach next s v}.ncard := by
  classical
  rw [← List.toFinset_card_of_nodup found.nodup, ← Set.ncard_coe_finset]
  refine Set.ncard_le_ncard (fun v hv => ?_) finite
  exact found.reached v (by simpa using hv)

end Found

section Paths

variable (next s)

/-- The shortest paths to a node, as the lists of the nodes visited. -/
def Shortest (v : V) : Set (List V) := {p | Path (Edge next) s (hop next s v) p v}

noncomputable def shortestPaths (v : V) : Nat := (Shortest next s v).ncard

/-- The predecessors on shortest paths. -/
def Pred (u v : V) : Prop := Reach next s u ∧ v ∈ next u ∧ hop next s v = hop next s u + 1

variable {next s} {u v : V}

theorem path_head {edge : V → Nat → V → Prop} {n : Nat} {p : List V} (path : Path edge s n p v) :
    p.head? = some v := by
  cases path <;> rfl

theorem shortest_self : Shortest next s s = {[s]} := by
  ext p
  simp only [Shortest, hop_self, Set.mem_ofPred_eq, Set.mem_singleton_iff]
  constructor
  · intro path
    generalize zero : 0 = n at path
    cases path with
    | here => rfl
    | step _ last _ =>
        obtain ⟨rfl, -⟩ := last
        omega
  · rintro rfl
    exact .here

/-- A shortest path comes from a predecessor. -/
theorem mem_shortest (away : v ≠ s) (p : List V) :
    p ∈ Shortest next s v ↔ ∃ u, Pred next s u v ∧ ∃ q ∈ Shortest next s u, v :: q = p := by
  simp only [Shortest, Set.mem_ofPred_eq]
  constructor
  · intro path
    generalize length : hop next s v = n at path
    cases path with
    | here => exact absurd rfl away
    | @step n c q u _ path last fresh =>
        obtain ⟨rfl, hv⟩ := last
        have reached : Reach next s u := ⟨n, path.walk⟩
        have short := hop_le path.walk
        have long := hop_step reached hv
        obtain rfl : n = hop next s u := by omega
        exact ⟨u, ⟨reached, hv, length⟩, q, path, rfl⟩
  · rintro ⟨u, ⟨-, hv, step⟩, q, path, rfl⟩
    rw [step]
    refine path.step ⟨rfl, hv⟩ fun here => ?_
    -- all nodes of a shortest path are closer than `v`
    obtain ⟨m, _, le, cut⟩ := path.cut here
    have short := hop_le cut.walk
    omega

theorem shortest_finite (finite : {v | Reach next s v}.Finite) (v : V) : (Shortest next s v).Finite := by
  induction distance : hop next s v using Nat.strong_induction_on generalizing v with
  | _ n ih =>
      by_cases away : v = s
      · rw [away, shortest_self]
        exact Set.finite_singleton _
      · have preds : {u | Pred next s u v}.Finite := finite.subset fun u pred => pred.1
        have cover : Shortest next s v ⊆ ⋃ u ∈ {u | Pred next s u v}, (v :: ·) '' Shortest next s u := by
          intro p hp
          obtain ⟨u, pred, q, hq, rfl⟩ := (mem_shortest away p).mp hp
          exact Set.mem_biUnion pred ⟨q, hq, rfl⟩
        refine (Set.Finite.biUnion preds fun u pred => Set.Finite.image _ ?_).subset cover
        exact ih _ (by rw [← distance, pred.2.2]; exact Nat.lt_succ_self _) u rfl

/-- The shortest paths to a node are counted over its predecessors. -/
theorem shortestPaths_sum (finite : {v | Reach next s v}.Finite) (away : v ≠ s) {ps : List V} (once : ps.Nodup)
    (preds : ∀ u, u ∈ ps ↔ Pred next s u v) :
    shortestPaths next s v = (ps.map (shortestPaths next s)).sum := by
  have family : Shortest next s v = {p | ∃ u ∈ ps, p ∈ (v :: ·) '' Shortest next s u} := by
    ext p
    rw [mem_shortest away]
    simp only [preds, Set.mem_ofPred_eq, Set.mem_image]
  have apart : ps.Pairwise fun u w => Disjoint ((v :: ·) '' Shortest next s u) ((v :: ·) '' Shortest next s w) := by
    refine once.imp fun {u w} other => Set.disjoint_left.mpr ?_
    rintro _ ⟨p, hp, rfl⟩ ⟨q, hq, same⟩
    obtain rfl : q = p := (List.cons.inj same).2
    exact other (Option.some.inj ((path_head hp).symm.trans (path_head hq)))
  rw [shortestPaths, family, (Counting.ncard_family (fun u _ => (shortest_finite finite u).image _) apart).2]
  refine congrArg List.sum (List.map_congr_left fun u _ => ?_)
  exact Set.ncard_image_of_injective _ List.cons_injective

theorem shortestPaths_self : shortestPaths next s s = 1 := by
  rw [shortestPaths, shortest_self, Set.ncard_singleton]

theorem not_pred_self : ¬ Pred next s u s := by
  rintro ⟨-, -, step⟩
  rw [hop_self] at step
  omega

/-- The source has the empty path as well, and no predecessors. -/
theorem shortestPaths_eq [DecidableEq V] (finite : {v | Reach next s v}.Finite) {ps : List V} (once : ps.Nodup)
    (preds : ∀ u, u ∈ ps ↔ Pred next s u v) :
    (if v = s then 1 else 0) + (ps.map (shortestPaths next s)).sum = shortestPaths next s v := by
  by_cases here : v = s
  · subst here
    have none : ps = [] := List.eq_nil_iff_forall_not_mem.mpr fun u hu => not_pred_self ((preds u).mp hu)
    rw [none, if_pos rfl, shortestPaths_self]
    rfl
  · rw [if_neg here, Nat.zero_add, shortestPaths_sum finite here once preds]

theorem shortestPaths_pos (finite : {v | Reach next s v}.Finite) (reached : Reach next s v) :
    0 < shortestPaths next s v := by
  rw [shortestPaths, Set.ncard_pos (shortest_finite finite v)]
  obtain ⟨m, p, le, path⟩ := (hop_walk reached).path
  have least := hop_le path.walk
  obtain rfl : m = hop next s v := le.antisymm least
  exact ⟨p, path⟩

end Paths

section Scan

variable {σ α : Type} (node : α → V) (seen : σ → V → Prop) (visit : σ → α → σ)

/-- A list to which a visit appends a node which has not been seen. -/
def Appends (log : σ → List V) : Prop :=
  ∀ s x, (seen s (node x) → log (visit s x) = log s) ∧ (¬ seen s (node x) → log (visit s x) = log s ++ [node x])

/-- What a scan appends, if a visit marks its node. -/
theorem scan_fresh (marks : ∀ s x v, seen (visit s x) v ↔ v = node x ∨ seen s v) (xs : List α) (s : σ) :
    ∃ fresh : List V, fresh.Nodup ∧ (∀ v, v ∈ fresh ↔ v ∈ xs.map node ∧ ¬ seen s v) ∧
      (∀ v, seen (xs.foldl visit s) v ↔ seen s v ∨ v ∈ fresh) ∧
      ∀ log, Appends node seen visit log → log (xs.foldl visit s) = log s ++ fresh := by
  induction xs generalizing s with
  | nil => exact ⟨[], List.nodup_nil, by simp, by simp, by simp⟩
  | cons x xs ih =>
      obtain ⟨fresh, once, members, all, logs⟩ := ih (visit s x)
      have members : ∀ v, v ∈ fresh ↔ v ∈ xs.map node ∧ v ≠ node x ∧ ¬ seen s v := by
        intro v
        rw [members, marks, not_or]
      rw [List.foldl_cons]
      by_cases old : seen s (node x)
      · refine ⟨fresh, once, fun v => ?_, fun v => ?_, fun log appends => ?_⟩
        · rw [members, List.map_cons, List.mem_cons]
          by_cases here : v = node x <;> simp [here, old]
        · rw [all, marks]
          by_cases here : v = node x <;> simp [here, old]
        · rw [logs log appends, (appends s x).1 old]
      · refine ⟨node x :: fresh, ?_, fun v => ?_, fun v => ?_, fun log appends => ?_⟩
        · exact List.nodup_cons.mpr ⟨fun here => ((members _).mp here).2.1 rfl, once⟩
        · rw [List.mem_cons, members, List.map_cons, List.mem_cons]
          by_cases here : v = node x <;> simp [here, old]
        · rw [all, marks, List.mem_cons]
          tauto
        · rw [logs log appends, (appends s x).2 old, List.append_assoc, List.singleton_append]

end Scan

end BreadthFirst
