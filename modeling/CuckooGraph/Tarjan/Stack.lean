import CuckooGraph.Reachability
import CuckooGraph.Tarjan

/-! # The stack of the search

`num` is the index with which each visited node was entered. The program forgets
it when `low` is lowered. On the stack the indices grow towards the top, and
`low` is always the index of some node on the stack that can be reached.
-/

namespace CuckooGraph

open Reachability

namespace Tarjan

variable (neighbors : Key → List Key) (n : Nat)

def leads (a b : Key) : Prop := b ∈ neighbors a

/-- The nodes whose components are found. -/
def closed (s : Tarjan) : List Key := s.sccList.flatten

/-- What holds of the state throughout the search. -/
structure Inv (num : Key → Int) (s : Tarjan) : Prop where
  sound : s.fault = false
  count : s.sccList.length = s.sccCount + 1
  listed : ∃ comps, s.sccList = comps ++ [[]] ∧ (∀ C ∈ comps, Component (leads neighbors) C) ∧
    Ordered (leads neighbors) comps
  shut : Closed (leads neighbors) (· ∈ s.closed)
  nodup : (s.stk ++ s.closed).Nodup
  seen : ∀ w, s.low w ≠ -1 ↔ w ∈ s.stk ∨ w ∈ s.closed
  nodes : ∀ w, s.low w ≠ -1 → 1 ≤ w ∧ w ≤ n
  onStack : ∀ w, s.instack w = true ↔ w ∈ s.stk
  sorted : s.stk.Pairwise fun a b => num b < num a
  bounds : ∀ w ∈ s.stk, 0 ≤ num w ∧ num w < s.index
  index : 0 ≤ s.index
  low : ∀ w ∈ s.stk, s.low w ≤ num w ∧ ∃ x ∈ s.stk, num x = s.low w ∧ Reach (leads neighbors) w x

/-- The edge from `w` to `x` was looked at. -/
def Met (num : Key → Int) (s : Tarjan) (w x : Key) : Prop := x ∈ s.closed ∨ x ∈ s.stk ∧ s.low w ≤ num x

/-- All edges of `w` were looked at, and `w` is not the root of a component. -/
structure Settled (num : Key → Int) (s : Tarjan) (w : Key) : Prop where
  low : s.low w < num w
  edges : ∀ x ∈ neighbors w, Met num s w x

/-- The nodes `new` were pushed, and nothing has changed for those visited before. -/
structure Grown (s : Tarjan) (num : Key → Int) (s' : Tarjan) (num' : Key → Int) (new : List Key) : Prop where
  stk : s'.stk = new ++ s.stk
  kept : ∀ w, s.low w ≠ -1 → s'.low w = s.low w ∧ num' w = num w
  later : ∀ w ∈ new, s.index ≤ num' w
  index : s.index ≤ s'.index
  found : s.closed ⊆ s'.closed

variable {neighbors n} {num num' num'' : Key → Int} {s s' s'' : Tarjan} {u v w x : Key} {new new' : List Key}

section Grow

theorem Grown.trans (h : Grown s num s' num' new) (h' : Grown s' num' s'' num'' new')
    (seen : ∀ w ∈ new, s'.low w ≠ -1) : Grown s num s'' num'' (new' ++ new) where
  stk := by rw [h'.stk, h.stk, List.append_assoc]
  kept := by
    intro w known
    obtain ⟨low, same⟩ := h.kept w known
    obtain ⟨low', same'⟩ := h'.kept w (low ▸ known)
    exact ⟨low'.trans low, same'.trans same⟩
  later := by
    intro w hw
    rcases List.mem_append.mp hw with hw | hw
    · exact h.index.trans (h'.later w hw)
    · rw [(h'.kept w (seen w hw)).2]
      exact h.later w hw
  index := h.index.trans h'.index
  found := fun _ hw => h'.found (h.found hw)

/-- An edge looked at stays one. -/
theorem Met.mono (inv : Inv neighbors n num s) (h : Grown s num s' num' new) (known : w ∈ s.stk)
    (met : Met num s w x) : Met num' s' w x := by
  rcases met with found | ⟨on, le⟩
  · exact .inl (h.found found)
  · right
    rw [h.stk, (h.kept w ((inv.seen w).mpr (.inl known))).1, (h.kept x ((inv.seen x).mpr (.inl on))).2]
    exact ⟨List.mem_append.mpr (.inr on), le⟩

theorem Settled.mono (inv : Inv neighbors n num s) (h : Grown s num s' num' new) (known : w ∈ s.stk)
    (settled : Settled neighbors num s w) : Settled neighbors num' s' w where
  low := by
    obtain ⟨low, same⟩ := h.kept w ((inv.seen w).mpr (.inl known))
    rw [low, same]
    exact settled.low
  edges := fun x hx => (settled.edges x hx).mono inv h known

end Grow

section Enter

theorem Inv.enter (inv : Inv neighbors n num s) (fresh : s.low v = -1) (node : 1 ≤ v ∧ v ≤ n) :
    Inv neighbors n (Function.update num v s.index) (s.enter v) ∧
      Grown s num (s.enter v) (Function.update num v s.index) [v] := by
  have other : ∀ w, s.low w ≠ -1 → w ≠ v := by
    rintro w known rfl
    exact known fresh
  have away : ∀ w ∈ s.stk, w ≠ v := fun w hw => other w ((inv.seen w).mpr (.inl hw))
  have index := inv.index
  refine ⟨⟨inv.sound, inv.count, inv.listed, inv.shut, ?_, ?_, ?_, ?_, ?_, ?_, ?_, ?_⟩, ?_⟩
  · refine List.nodup_cons.mpr ⟨fun member => ?_, inv.nodup⟩
    exact (inv.seen v).mpr (List.mem_append.mp member) fresh
  · intro w
    by_cases same : w = v
    · subst same
      simp [Tarjan.enter]
      omega
    · simpa [Tarjan.enter, Tarjan.closed, same] using inv.seen w
  · intro w known
    by_cases same : w = v
    · exact same ▸ node
    · exact inv.nodes w (by simpa [Tarjan.enter, same] using known)
  · intro w
    by_cases same : w = v
    · subst same
      simp [Tarjan.enter]
    · simpa [Tarjan.enter, same] using inv.onStack w
  · refine List.pairwise_cons.mpr ⟨fun w hw => ?_, inv.sorted.imp_of_mem fun ha hb less => ?_⟩
    · rw [Function.update_self, Function.update_of_ne (away w hw)]
      exact (inv.bounds w hw).2
    · rwa [Function.update_of_ne (away _ ha), Function.update_of_ne (away _ hb)]
  · intro w hw
    rcases List.mem_cons.mp hw with rfl | hw
    · simp [Tarjan.enter, index]
    · have bounds := inv.bounds w hw
      simp only [Tarjan.enter, Function.update_of_ne (away w hw)]
      omega
  · simp only [Tarjan.enter]
    omega
  · intro w hw
    rcases List.mem_cons.mp hw with rfl | hw
    · exact ⟨by simp [Tarjan.enter], w, List.mem_cons_self, by simp [Tarjan.enter], .refl⟩
    · obtain ⟨le, x, hx, same, path⟩ := inv.low w hw
      simp only [Tarjan.enter, Function.update_of_ne (away w hw)]
      exact ⟨le, x, List.mem_cons_of_mem v hx, by rw [Function.update_of_ne (away x hx), same], path⟩
  · refine ⟨rfl, fun w known => ?_, fun w hw => ?_, ?_, fun _ => id⟩
    · simp [Tarjan.enter, Function.update_of_ne (other w known)]
    · rw [List.mem_singleton.mp hw, Function.update_self]
    · simp only [Tarjan.enter]
      omega

end Enter

section Lower

theorem lower_fields : (s.lower v u).stk = s.stk ∧ (s.lower v u).index = s.index ∧
    (s.lower v u).instack = s.instack ∧ (s.lower v u).sccCount = s.sccCount ∧
    (s.lower v u).sccList = s.sccList ∧ (s.lower v u).fault = s.fault := by
  unfold lower
  split <;> exact ⟨rfl, rfl, rfl, rfl, rfl, rfl⟩

theorem lower_other (other : w ≠ v) : (s.lower v u).low w = s.low w := by
  unfold lower
  split
  · exact Function.update_of_ne other _ _
  · rfl

theorem lower_self : (s.lower v u).low v = min (s.low v) (s.low u) := by
  unfold lower
  split
  · dsimp only
    rw [Function.update_self]
    omega
  · omega

/-- `low` of a node becomes that of a neighbour on the stack. -/
theorem Inv.lower (inv : Inv neighbors n num s) (hv : v ∈ s.stk) (hu : u ∈ s.stk) (edge : u ∈ neighbors v) :
    Inv neighbors n num (s.lower v u) := by
  obtain ⟨stk, index, instack, sccCount, sccList, fault⟩ := lower_fields (s := s) (v := v) (u := u)
  have known : ∀ w, (s.lower v u).low w ≠ -1 ↔ s.low w ≠ -1 := by
    intro w
    by_cases same : w = v
    · subst same
      have first := (inv.seen w).mpr (.inl hv)
      have second := (inv.seen u).mpr (.inl hu)
      rw [lower_self]
      exact iff_of_true (by rcases min_choice (s.low w) (s.low u) with h | h <;> rwa [h]) first
    · rw [lower_other same]
  have closed : (s.lower v u).closed = s.closed := congrArg List.flatten sccList
  constructor
  · rw [fault]
    exact inv.sound
  · rw [sccList, sccCount]
    exact inv.count
  · rw [sccList]
    exact inv.listed
  · rw [closed]
    exact inv.shut
  · rw [closed, stk]
    exact inv.nodup
  · intro w
    rw [known, stk, closed]
    exact inv.seen w
  · intro w hw
    exact inv.nodes w ((known w).mp hw)
  · rw [instack, stk]
    exact inv.onStack
  · rw [stk]
    exact inv.sorted
  · rw [stk, index]
    exact inv.bounds
  · rw [index]
    exact inv.index
  · intro w hw
    rw [stk] at hw ⊢
    by_cases same : w = v
    · subst same
      obtain ⟨le, x, hx, at_, path⟩ := inv.low w hv
      obtain ⟨le', x', hx', at', path'⟩ := inv.low u hu
      rw [lower_self]
      refine ⟨(min_le_left _ _).trans le, ?_⟩
      rcases min_choice (s.low w) (s.low u) with h | h
      · rw [h]
        exact ⟨x, hx, at_, path⟩
      · rw [h]
        exact ⟨x', hx', at', .head edge path'⟩
    · rw [lower_other same]
      exact inv.low w hw

end Lower

end Tarjan

end CuckooGraph
