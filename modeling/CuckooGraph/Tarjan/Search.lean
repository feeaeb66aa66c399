import CuckooGraph.Tarjan.Frame

/-! # The whole search

The recursion gets deeper only by visiting a node, so it is at most as deep as
there are nodes. When a call from an empty stack returns, the stack is empty
again: its lowest node could not have got lower.
-/

namespace CuckooGraph

open Reachability

namespace Tarjan

variable (neighbors : Key → List Key) (n : Nat)

/-- The nodes not visited yet. -/
noncomputable def unseen (s : Tarjan) : Finset Key := (Finset.Icc 1 (n : Key)).filter fun w => s.low w = -1

/-- A recursive call does what it should, if so many nodes are left at most. -/
def Works (fuel : Nat) (call : Key → Tarjan → Option Tarjan) : Prop :=
  ∀ v s num, Inv neighbors n num s → s.low v = -1 → 1 ≤ v ∧ v ≤ n → (unseen n s).card ≤ fuel →
    ∃ s' num' new, call v s = some s' ∧ Called neighbors n v s num s' num' new

variable {neighbors n} {num num0 : Key → Int} {s s0 : Tarjan} {v : Key} {new seen : List Key}

theorem mem_unseen {w : Key} : w ∈ unseen n s ↔ (1 ≤ w ∧ w ≤ n) ∧ s.low w = -1 := by
  simp [unseen]

/-- Inside of a call there are fewer nodes left. -/
theorem Frame.card_unseen (f : Frame neighbors n v s0 num0 seen s num new) (fresh : s0.low v = -1)
    (node : 1 ≤ v ∧ v ≤ n) : (unseen n s).card < (unseen n s0).card := by
  apply Finset.card_lt_card
  rw [Finset.ssubset_iff_of_subset]
  · refine ⟨v, mem_unseen.mpr ⟨node, fresh⟩, fun still => ?_⟩
    exact f.inv.visited f.on (mem_unseen.mp still).2
  · intro w hw
    obtain ⟨inside, still⟩ := mem_unseen.mp hw
    refine mem_unseen.mpr ⟨inside, ?_⟩
    by_contra known
    exact known ((f.grown.kept w known).1 ▸ still)

section Loop

variable {fuel : Nat} {call : Key → Tarjan → Option Tarjan} (works : Works neighbors n fuel call)
  (inside : ∀ u ∈ neighbors v, 1 ≤ u ∧ u ≤ n) (fresh : s0.low v = -1) (node : 1 ≤ v ∧ v ≤ n)
  (enough : (unseen n s0).card ≤ fuel + 1)

include works inside fresh node enough

/-- One neighbour, in each of the three cases. -/
theorem visit_frame (f : Frame neighbors n v s0 num0 seen s num new) (floor : Floor v s new) {u : Key}
    (edge : u ∈ neighbors v) : ∃ s' num' new', visit call v s u = some s' ∧
      Frame neighbors n v s0 num0 (seen ++ [u]) s' num' new' ∧ Floor v s' new' := by
  have fewer := f.card_unseen fresh node
  by_cases first : s.low u = -1
  · obtain ⟨s1, num1, new1, done, called⟩ := works u s num f.inv first (inside u edge) (by omega)
    have g := f.call edge called
    have unfolded : visit call v s u = some (s1.lower v u) := by simp [visit, first, done]
    obtain ⟨low, -⟩ := called.grown.kept v (f.inv.visited f.on)
    have rest : ∀ w ∈ new, s1.low v ≤ s1.low w := by
      intro w hw
      rw [low, (called.grown.kept w (f.inv.visited (f.above hw))).1]
      exact floor w hw
    rcases called.ending with ⟨rfl, found, high⟩ | pushed
    · -- the component of `u` is found, and `low[u]` is above `low[v]`
      have stays : s1.lower v u = s1 := by
        have le := (f.inv.low v f.on).1
        have bound := (f.inv.bounds v f.on).2
        unfold Tarjan.lower
        rw [if_neg (by omega)]
      rw [stays] at unfolded
      exact ⟨s1, num1, _, unfolded, g.met (.inl found), rest⟩
    · obtain ⟨frame, floor'⟩ := g.lower fresh (g.above (List.mem_append.mpr (.inl pushed))) edge fun w hw => by
        rcases List.mem_append.mp hw with hw | hw
        · exact (min_le_right _ _).trans (called.floor w hw)
        · exact (min_le_left _ _).trans (rest w hw)
      exact ⟨_, num1, _, unfolded, frame, floor'⟩
  · by_cases on : u ∈ s.stk
    · have unfolded : visit call v s u = some (s.lower v u) := by
        simp [visit, first, (f.inv.onStack u).mpr on]
      obtain ⟨frame, floor'⟩ := f.lower fresh on edge fun w hw => (min_le_left _ _).trans (floor w hw)
      exact ⟨_, num, new, unfolded, frame, floor'⟩
    · have off : s.instack u = false := by simpa using (f.inv.onStack u).not.mpr on
      have found : u ∈ s.closed := ((f.inv.seen u).mp first).resolve_left on
      exact ⟨s, num, new, by simp [visit, first, off], f.met (.inl found), floor⟩

/-- The loop of `tarjan`. -/
theorem foldlM_frame {us : List Key} (edges : ∀ u ∈ us, u ∈ neighbors v)
    (f : Frame neighbors n v s0 num0 seen s num new) (floor : Floor v s new) :
    ∃ s' num' new', us.foldlM (visit call v) s = some s' ∧
      Frame neighbors n v s0 num0 (seen ++ us) s' num' new' ∧ Floor v s' new' := by
  induction us generalizing seen s num new with
  | nil => exact ⟨s, num, new, rfl, by rwa [List.append_nil], floor⟩
  | cons u us ih =>
      obtain ⟨s1, num1, new1, done, f1, floor1⟩ :=
        visit_frame works inside fresh node enough f floor (edges u List.mem_cons_self)
      obtain ⟨s2, num2, new2, rest, f2, floor2⟩ := ih (fun w hw => edges w (List.mem_cons_of_mem u hw)) f1 floor1
      refine ⟨s2, num2, new2, ?_, ?_, floor2⟩
      · rw [List.foldlM_cons, done]
        exact rest
      · rwa [List.append_assoc, List.singleton_append] at f2

end Loop

section Calls

variable (inside : ∀ v : Key, 1 ≤ v ∧ v ≤ n → ∀ u ∈ neighbors v, 1 ≤ u ∧ u ≤ n)

include inside

/-- A call of `tarjan` returns, by induction on how many nodes are left. -/
theorem tarjan_works (fuel : Nat) : Works neighbors n fuel (tarjan neighbors fuel) := by
  induction fuel with
  | zero =>
      intro v s num inv fresh node enough
      have left : v ∈ unseen n s := mem_unseen.mpr ⟨node, fresh⟩
      rw [Finset.card_eq_zero.mp (Nat.le_zero.mp enough)] at left
      cases left
  | succ fuel ih =>
      intro v s num inv fresh node enough
      obtain ⟨entered, grown⟩ := inv.enter fresh node
      have start : Frame neighbors n v s num [] (s.enter v) (Function.update num v s.index) [] :=
        ⟨entered, grown, Function.update_self .., by simp, by simp, by simp⟩
      obtain ⟨s1, num1, new1, loop, f, floor⟩ := foldlM_frame ih (inside v node) fresh node enough
        (fun u (hu : u ∈ neighbors v) => hu) start (by simp [Floor])
      rw [List.nil_append] at f
      by_cases low : s1.low v = s.index
      · refine ⟨s1.close v, num1, [], ?_, f.closes floor inv low⟩
        simp only [tarjan, loop, Option.map_some, if_pos low]
      · refine ⟨s1, num1, new1 ++ [v], ?_, f.stays floor low⟩
        simp only [tarjan, loop, Option.map_some, if_neg low]

omit inside in
/-- A call from an empty stack leaves the stack empty. -/
theorem Called.empty {s' : Tarjan} {num' : Key → Int}
    (called : Called neighbors n v s num s' num' new) (vacant : s.stk = []) : s'.stk = [] ∧ v ∈ s'.closed := by
  have stk := called.grown.stk
  rw [vacant, List.append_nil] at stk
  have none : new = [] := by
    rcases List.eq_nil_or_concat new with rfl | ⟨rest, w, rfl⟩
    · rfl
    · -- the lowest node of the stack would have to get to a lower one
      have sorted := called.inv.sorted
      rw [stk, List.concat_eq_append] at sorted
      have hw : w ∈ s'.stk := by simp [stk]
      have less := (called.settled w (by simp)).low
      obtain ⟨-, x, hx, same, -⟩ := called.inv.low w hw
      rw [stk, List.concat_eq_append] at hx
      rcases List.mem_append.mp hx with hx | hx
      · have above := (List.pairwise_append.mp sorted).2.2 x hx w List.mem_cons_self
        omega
      · rw [List.mem_singleton.mp hx] at same
        omega
  rcases called.ending with ⟨-, found, -⟩ | pushed
  · exact ⟨stk.trans none, found⟩
  · rw [none] at pushed
    cases pushed

/-- The loop of `tarjan_algorithm`. -/
theorem foldlM_search {fuel : Nat} (enough : n ≤ fuel) {us : List Key} (nodes : ∀ u ∈ us, 1 ≤ u ∧ u ≤ n)
    (inv : Inv neighbors n num s) (vacant : s.stk = []) :
    ∃ s' num', us.foldlM (search neighbors fuel) s = some s' ∧ Inv neighbors n num' s' ∧ s'.stk = [] ∧
      s.closed ⊆ s'.closed ∧ ∀ u ∈ us, u ∈ s'.closed := by
  induction us generalizing s num with
  | nil => exact ⟨s, num, rfl, inv, vacant, fun _ => id, by simp⟩
  | cons u us ih =>
      have later := fun w hw => nodes w (List.mem_cons_of_mem u hw)
      have first : ∃ s1 num1, search neighbors fuel s u = some s1 ∧ Inv neighbors n num1 s1 ∧ s1.stk = [] ∧
          s.closed ⊆ s1.closed ∧ u ∈ s1.closed := by
        by_cases fresh : s.low u = -1
        · have few : (unseen n s).card ≤ fuel := by
            have all := (Finset.card_filter_le (Finset.Icc 1 (n : Key)) fun w => s.low w = -1)
            rw [Int.card_Icc] at all
            unfold unseen
            omega
          obtain ⟨s1, num1, new, done, called⟩ :=
            tarjan_works inside fuel u s num inv fresh (nodes u List.mem_cons_self) few
          obtain ⟨empty, found⟩ := called.empty vacant
          exact ⟨s1, num1, by simp only [search, if_pos fresh, done], called.inv, empty, called.grown.found, found⟩
        · have found : u ∈ s.closed := by
            rcases (inv.seen u).mp fresh with on | found
            · rw [vacant] at on
              cases on
            · exact found
          exact ⟨s, num, by simp only [search, if_neg fresh], inv, vacant, fun _ => id, found⟩
      obtain ⟨s1, num1, done, inv1, empty, more, here⟩ := first
      obtain ⟨s2, num2, rest, inv2, empty2, more2, found⟩ := ih later inv1 empty
      refine ⟨s2, num2, ?_, inv2, empty2, fun w hw => more2 (more hw), ?_⟩
      · rw [List.foldlM_cons, done]
        exact rest
      · intro w hw
        rcases List.mem_cons.mp hw with rfl | hw
        · exact more2 here
        · exact found w hw

end Calls

theorem mem_nodes {v : Int} : v ∈ nodes n ↔ 1 ≤ v ∧ v ≤ n := by
  simp only [nodes, List.mem_map, List.mem_range]
  constructor
  · rintro ⟨i, inside, rfl⟩
    omega
  · intro node
    exact ⟨(v - 1).toNat, by omega, by omega⟩

theorem inv_start : Inv neighbors n (fun _ => 0) start where
  sound := rfl
  count := rfl
  listed := ⟨[], rfl, by simp, List.Pairwise.nil⟩
  shut := fun _ ha => by simp [start, closed] at ha
  nodup := by simp [start, closed]
  seen := by simp [start, closed]
  nodes := by simp [start]
  onStack := by simp [start]
  sorted := List.Pairwise.nil
  bounds := by simp [start]
  index := le_refl _
  low := by simp [start]

/-- What the search leaves behind: the components, in reverse topological order. -/
structure Found (neighbors : Key → List Key) (n : Nat) (s : Tarjan) (comps : List (List Key)) : Prop where
  sound : s.fault = false
  empty : s.stk = []
  count : s.sccCount = comps.length
  list : s.sccList = comps ++ [[]]
  nodup : comps.flatten.Nodup
  nodes : ∀ v, v ∈ comps.flatten ↔ 1 ≤ v ∧ v ≤ n
  components : ∀ C ∈ comps, Component (leads neighbors) C
  ordered : Ordered (leads neighbors) comps

/-- On every graph with the nodes 1 to `n` the search comes to an end, at a
    recursion depth of at most `n`, and finds the strongly connected components. -/
theorem tarjanAlgorithm_found (inside : ∀ v : Key, 1 ≤ v ∧ v ≤ n → ∀ u ∈ neighbors v, 1 ≤ u ∧ u ≤ n)
    {fuel : Nat} (enough : n ≤ fuel) :
    ∃ s comps, tarjanAlgorithm neighbors fuel n start = some s ∧ Found neighbors n s comps := by
  obtain ⟨s, num, done, inv, empty, -, all⟩ :=
    foldlM_search inside enough (fun _ hu => mem_nodes.mp hu) inv_start rfl
  obtain ⟨comps, list, components, ordered⟩ := inv.listed
  have closed : s.closed = comps.flatten := by simp [Tarjan.closed, list]
  have count := inv.count
  have nodup := inv.nodup
  rw [list, List.length_append, List.length_singleton] at count
  rw [empty, closed] at nodup
  refine ⟨s, comps, done, inv.sound, empty, by omega, list, nodup, fun v => ⟨fun found => ?_, fun node => ?_⟩,
    components, ordered⟩
  · exact inv.nodes v ((inv.seen v).mpr (.inr (closed.symm ▸ found)))
  · rw [← closed]
    exact all v (mem_nodes.mpr node)

/-- Two components, of which the one of 1 leads to the one of 3. -/
theorem tarjanAlgorithm_found_three :
    let neighbors : Key → List Key := fun v => if v = 1 then [2, 1] else if v = 2 then [1, 3] else []
    ∃ s comps, tarjanAlgorithm neighbors 3 3 start = some s ∧ Found neighbors 3 s comps := by
  intro neighbors
  refine tarjanAlgorithm_found (n := 3) (fun v _ u hu => ?_) (by decide)
  have listed : u = 1 ∨ u = 2 ∨ u = 3 := by
    simp only [neighbors] at hu
    split at hu
    · simp at hu
      tauto
    · split at hu
      · simp at hu
        tauto
      · cases hu
  rcases listed with rfl | rfl | rfl <;> decide

example :
    (tarjanAlgorithm (fun v => if v = 1 then [2, 1] else if v = 2 then [1, 3] else []) 3 3 start).map sccList =
      some [[3], [2, 1], []] := by decide +kernel

end Tarjan

end CuckooGraph
