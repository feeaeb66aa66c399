import CuckooGraph.ShortestPaths
import CuckooGraph.Triangles

/-! # Hop distances

The loops of `test_sssp_new` relax the edges out of the node selected. A node is
settled with its flag, and no distance found is greater than the number of nodes
which have a flag, so that no sum overflows and none is mistaken for `INF`.
-/

namespace CuckooGraph

open Distances

namespace Sssp

/-- Every edge of a graph has length 1. -/
def hop (G : Key → Key → Bool) (a b : Key) : Nat := if G a b then 1 else 0

/-- After the rounds but `n`. -/
structure Settled (G : Key → Key → Bool) (topk : List Key) (vs : Key) (n : Nat) (s : Sssp) : Prop where
  labels : Labels (inside topk (hop G)) 2147483647 vs (· ∈ topk) (s.flag · = true) s.dist
  left : left topk s = n
  known : ∀ u, s.flag u = true → s.dist u + n < topk.length
  bound : ∀ v ∈ topk, s.dist v = 2147483647 ∨ s.dist v + n ≤ topk.length

variable {G : Key → Key → Bool} {topk : List Key} {vs : Key} {n : Nat} {s : Sssp}

theorem hop_pos {a b : Key} (edge : hop G a b ≠ 0) : hop G a b = 1 := by
  by_cases there : G a b <;> simp_all [hop]

section Round

variable (nodup : topk.Nodup) (short : topk.length ≤ 2147483647) (settled : Settled G topk vs (n + 1) s) {k : Key}
  (hk : k ∈ topk) (open_ : s.flag k = false) (low : ∀ v ∈ topk, s.flag v = false → s.dist k ≤ s.dist v)

include settled low

/-- No node without a flag is reached if the least distance is `INF`. -/
theorem Settled.distance_stop (short : topk.length ≤ 2147483647) (none : s.dist k = 2147483647) {v : Key}
    (hv : v ∈ topk) : Distance (inside topk (hop G)) 2147483647 vs v (s.dist v) := by
  have all : ∀ v ∈ topk, s.flag v = false → s.dist v = 2147483647 := fun v hv unset => by
    have high := low v hv unset
    rcases settled.bound v hv with top | bound
    · exact top
    · omega
  cases set : s.flag v with
  | true => exact .inl (settled.labels.least v set)
  | false =>
      refine .inr ⟨all v hv set, fun n => ?_⟩
      apply settled.labels.unreachable (by simp [set])
      · intro u c x unset edge
        exact all x edge.2.1 (by simpa using unset)
      · rintro u c x seen ⟨-, -, rfl, edge⟩ -
        have bound := settled.known u seen
        rw [hop_pos edge]
        omega

include nodup hk open_

theorem Settled.relaxed (finite : s.dist k ≠ 2147483647) {t s' : Sssp}
    (flag : t.flag = Function.update s.flag k true) (dist : t.dist = s.dist)
    (relaxed : Relaxed topk (hop G k) (fun _ => s.dist k + 1) t s') : Settled G topk vs n s' := by
  have bound := (settled.bound k hk).resolve_left finite
  have least := settled.labels.settle hk (by simp [open_]) finite
    fun u c v unset edge => low v edge.2.1 (by simpa using unset)
  have seen : ∀ u, s'.flag u = true ↔ u = k ∨ s.flag u = true := by
    intro u
    rw [relaxed.flag, flag]
    by_cases here : u = k <;> simp [here]
  have kept : ∀ u, s'.flag u = true → s'.dist u = s.dist u := fun u set => by
    rw [relaxed.kept u (relaxed.flag ▸ set), dist]
  have before : ∀ v, ¬ s'.flag v = true → ¬ s.flag v = true := fun v unset set => unset ((seen v).mpr (.inr set))
  constructor
  case labels =>
    constructor
    case source => exact (seen vs).mpr (.inr settled.labels.source)
    case least =>
      intro u set
      rw [kept u set]
      rcases (seen u).mp set with rfl | set
      · exact least
      · exact settled.labels.least u set
    case walk =>
      intro v hv unset
      rcases relaxed.source v with same | ⟨edge, sum⟩
      · rw [same, dist]
        exact settled.labels.walk v hv (before v unset)
      · rw [sum]
        exact .inr (Walk.step least.1 ⟨hk, hv, hop_pos edge, Nat.one_ne_zero⟩)
    case relaxed =>
      rintro u c v set unset ⟨hu, hv, rfl, edge⟩
      rw [kept u set]
      rcases (seen u).mp set with rfl | set
      · rw [hop_pos edge]
        exact relaxed.offered v hv (by rw [← relaxed.flag]; simpa using unset) edge
      · have low := settled.labels.relaxed u _ v set (before v unset) ⟨hu, hv, rfl, edge⟩
        exact (dist ▸ relaxed.le v).trans low
  case left =>
    have count := left_flag nodup hk open_ (relaxed.flag.trans flag)
    have total := settled.left
    omega
  case known =>
    intro u set
    rw [kept u set]
    rcases (seen u).mp set with rfl | set
    · omega
    · have known := settled.known u set
      omega
  case bound =>
    intro v hv
    rcases relaxed.source v with same | ⟨-, sum⟩
    · rw [same, dist]
      exact (settled.bound v hv).imp_right fun bound => by omega
    · exact .inr (by rw [sum]; omega)

end Round

section Run

variable {edge : Key → Key → Option Bool} (nodup : topk.Nodup) (short : topk.length ≤ 2147483647)
  (asked : ∀ a ∈ topk, ∀ b ∈ topk, edge a b = some (G a b))

include asked

theorem ask_hop : ∀ a ∈ topk, ∀ b ∈ topk, (newDriver edge).ask a b = some (hop G a b) := by
  intro a ha b hb
  simp only [newDriver, asked a ha b hb, Option.map_some, hop]

include nodup short

theorem Settled.rounds (settled : Settled G topk vs n s) : ∃ s', rounds (newDriver edge) topk vs n s = some s' ∧
    ∀ v ∈ topk, Distance (inside topk (hop G)) 2147483647 vs v (s'.dist v) := by
  induction n generalizing s with
  | zero => exact ⟨s, rfl, fun v hv => .inl (settled.labels.least v (left_eq_zero settled.left hv))⟩
  | succ n ih =>
      obtain ⟨k, hk, open_, low, round⟩ := rounds_succ (D := newDriver edge) vs settled.left
      rw [round]
      by_cases none : s.dist k = 2147483647
      · exact ⟨_, if_pos none, fun v hv => settled.distance_stop low short none hv⟩
      · have bound := (settled.bound k hk).resolve_left none
        obtain ⟨s', done, relaxed⟩ := relax_spec (D := newDriver edge)
          (s := { s with flag := Function.update s.flag k true, k := some k }) k (s.dist k) (fun _ => s.dist k + 1)
          (ask_hop asked k hk)
          (fun v _ edge => by
            simp only [newDriver, plusInt, hop_pos edge]
            exact if_pos (by omega))
          fun v hv => by
            rcases settled.bound v hv with top | bound
            · exact top.le
            · simp only [newDriver]
              omega
        obtain ⟨s'', rest, exact_⟩ := ih (settled.relaxed nodup hk open_ low none
          (t := { s with flag := Function.update s.flag k true, k := some k }) rfl rfl relaxed)
        refine ⟨s'', ?_, exact_⟩
        simp only [newDriver, none, if_false] at done ⊢
        rw [done]
        exact rest

omit nodup short asked in
theorem settled_start (hvs : vs ∈ topk) (started : Started (newDriver edge) topk (hop G vs) vs s) :
    Settled G topk vs (topk.length - 1) s := by
  have positive := List.length_pos_of_mem hvs
  have total := started.left
  have direct : ∀ v ∈ topk, v ≠ vs → s.dist v = if hop G vs v ≠ 0 then 1 else 2147483647 := by
    intro v hv other
    rw [started.direct v hv other, Driver.direct]
    by_cases edge : hop G vs v = 0
    · simp [edge, newDriver]
    · simp [hop_pos edge]
  constructor
  case labels =>
    constructor
    case source => exact (started.flag vs).mpr rfl
    case least =>
      intro u set
      rw [(started.flag u).mp set, started.source]
      exact ⟨.here, fun _ _ => Nat.zero_le _⟩
    case walk =>
      intro v hv unset
      rw [direct v hv fun same => unset ((started.flag v).mpr same)]
      split
      · rename_i edge
        exact .inr (Walk.single ⟨hvs, hv, hop_pos edge, Nat.one_ne_zero⟩)
      · exact .inl rfl
    case relaxed =>
      rintro u c v set unset ⟨-, hv, rfl, edge⟩
      obtain rfl := (started.flag u).mp set
      rw [direct v hv fun same => unset ((started.flag v).mpr same), if_pos edge, hop_pos edge]
      exact Nat.le_add_left 1 _
  case left => omega
  case known =>
    intro u set
    rw [(started.flag u).mp set, started.source]
    omega
  case bound =>
    intro v hv
    by_cases here : v = vs
    · right
      rw [here, started.source]
      omega
    · rw [direct v hv here]
      split
      · right
        omega
      · exact .inl rfl

/-- The loops of `test_sssp_new` find the distances. -/
theorem run_new (hvs : vs ∈ topk) : ∃ s, run (newDriver edge) topk vs = some s ∧
    ∀ v ∈ topk, Distance (inside topk (hop G)) 2147483647 vs v (s.dist v) := by
  obtain ⟨s, started, start⟩ := run_eq nodup hvs (ask_hop asked vs hvs)
  rw [start]
  exact (settled_start hvs started).rounds nodup short asked

end Run

end Sssp

open Sssp

/-- Over both stores the loops end without an overflow, and with the distances
    in the graph which is stored. -/
theorem testSsspNew_exact (E : Env) (G : Key → Key → Bool) (topk : List Key) (nodup : topk.Nodup)
    (num : topk.length ≤ 2147483647) (vs : Key) (hvs : vs ∈ topk) (m : Memory Key) (hole : Holemerge Key)
    (holds : ∀ a ∈ topk, ∀ b ∈ topk, hole.query E m ⟨a, b⟩ ≠ 0 ↔ G a b = true) (wind : WindBell.Chandelier Unit)
    (answers : ∀ a ∈ topk, ∀ b ∈ topk, wind.queryEdge E ⟨a, b⟩ = some (G a b)) :
    (∃ s, testSsspNewHole E topk vs m hole = some s ∧
      ∀ v ∈ topk, Distance (inside topk (hop G)) 2147483647 vs v (s.dist v)) ∧
    ∃ s, testSsspNewWind E topk vs wind = some s ∧
      ∀ v ∈ topk, Distance (inside topk (hop G)) 2147483647 vs v (s.dist v) := by
  constructor
  · refine run_new nodup num (fun a ha b hb => ?_) hvs
    rw [Option.some_inj, Bool.eq_iff_iff, decide_eq_true_iff]
    exact holds a ha b hb
  · exact run_new nodup num answers hvs

open WindBell.Chandelier in
/-- The graphs stored by insertions. -/
theorem testSsspNew_inserted (E : Env) {l1 l2 : Nat} (sizes : 2 ≤ l2 ∧ l2 ≤ l1) (s1 s2 : Int) (len : Nat)
    (calls : List WindBell.Chandelier.Call) (known : ∀ x ∈ calls, x.1.src ≠ 0 ∧ x.1.dst ≠ 0)
    (low : ∀ before, before <+: inserts calls → (WindBell.Chandelier.run E len before).Low) (topk : List Key)
    (ids : ∀ a ∈ topk, a ≠ 0) :
    let s := insertEdges E (Memory.initial, Holemerge.fresh l1 l2 s1 s2) (calls.map Prod.fst)
    let G := fun a b => decide (⟨a, b⟩ ∈ calls.map Prod.fst)
    (∀ a ∈ topk, ∀ b ∈ topk, s.2.query E s.1 ⟨a, b⟩ ≠ 0 ↔ G a b = true) ∧
      ∀ a ∈ topk, ∀ b ∈ topk, (WindBell.Chandelier.run E len (inserts calls)).queryEdge E ⟨a, b⟩ = some (G a b) := by
  intro s G
  have known : ∀ e ∈ calls.map Prod.fst, e.src ≠ 0 ∧ e.dst ≠ 0 := by
    intro e he
    obtain ⟨x, hx, rfl⟩ := List.mem_map.mp he
    exact known x hx
  constructor
  · intro a ha b hb
    rw [(insertEdges_fresh E sizes s1 s2 known).2 ⟨a, b⟩ (ids a ha) (ids b hb), decide_eq_true_iff]
  · intro a _ b _
    obtain ⟨lists, sound, holds⟩ := run_sound len (inserts calls) low (outer_inserts len calls)
    obtain ⟨found, asked, here⟩ := sound.query (low _ List.prefix_rfl) ⟨a, b⟩
    rw [asked, Option.some_inj, Bool.eq_iff_iff, here, holds, mem_remaining_inserts, decide_eq_true_iff]

open WindBell.Chandelier in
/-- Two edges in a row, and a node which is not reached. -/
theorem testSsspNew_exact_row :
    let s := insertEdges colliding (Memory.initial, Holemerge.fresh bl1 bl2 0 221) [⟨1, 2⟩, ⟨2, 3⟩]
    ∃ r, testSsspNewHole colliding [1, 2, 3, 4] 1 s.1 s.2 = some r ∧ ∀ v ∈ [1, 2, 3, 4],
      Distance (inside [1, 2, 3, 4] (hop fun a b => decide (⟨a, b⟩ ∈ [(⟨1, 2⟩ : Edge), ⟨2, 3⟩]))) 2147483647 1 v
        (r.dist v) := by
  obtain ⟨holds, answers⟩ := testSsspNew_inserted colliding default_sizes 0 221 1
    [(⟨1, 2⟩, none, none), (⟨2, 3⟩, none, none)] (by decide)
    (run_low 1 _ (by decide) (outer_inserts 1 _)) [1, 2, 3, 4] (by decide)
  exact (testSsspNew_exact colliding _ [1, 2, 3, 4] (by decide) (by decide) 1 (by decide) _ _ holds _ answers).1

end CuckooGraph
