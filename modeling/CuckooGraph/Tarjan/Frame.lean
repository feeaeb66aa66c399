import CuckooGraph.Tarjan.Stack

/-! # One call of the search

A call of `tarjan` either leaves its node on the stack, or finds the component of
which it is the root. While it looks at the edges of its node, the nodes above
it on the stack have been left there by the calls it has made.
-/

namespace CuckooGraph

open Reachability

namespace Tarjan

variable (neighbors : Key → List Key) (n : Nat)

/-- What the call for `v`, from the state `s`, comes to. -/
structure Called (v : Key) (s : Tarjan) (num : Key → Int) (s' : Tarjan) (num' : Key → Int) (new : List Key) :
    Prop where
  inv : Inv neighbors n num' s'
  grown : Grown s num s' num' new
  down : ∀ w ∈ new, Reach (leads neighbors) v w
  settled : ∀ w ∈ new, Settled neighbors num' s' w
  floor : ∀ w ∈ new, s'.low v ≤ s'.low w
  ending : new = [] ∧ v ∈ s'.closed ∧ s.index ≤ s'.low v ∨ v ∈ new

/-- The call for `v`, from the state `s0`, with the edges to `seen` behind it. -/
structure Frame (v : Key) (s0 : Tarjan) (num0 : Key → Int) (seen : List Key) (s : Tarjan) (num : Key → Int)
    (new : List Key) : Prop where
  inv : Inv neighbors n num s
  grown : Grown s0 num0 s num (new ++ [v])
  root : num v = s0.index
  down : ∀ w ∈ new, Reach (leads neighbors) v w
  settled : ∀ w ∈ new, Settled neighbors num s w
  edges : ∀ x ∈ seen, Met num s v x

/-- No node above `v` has got lower than `v`. -/
def Floor (v : Key) (s : Tarjan) (new : List Key) : Prop := ∀ w ∈ new, s.low v ≤ s.low w

variable {neighbors n} {num num' num0 num1 : Key → Int} {s s' s0 s1 : Tarjan} {u v w x : Key}
  {new new1 seen : List Key}

section Edges

theorem Inv.visited (inv : Inv neighbors n num s) (hw : w ∈ s.stk) : s.low w ≠ -1 := (inv.seen w).mpr (.inl hw)

namespace Frame

variable (f : Frame neighbors n v s0 num0 seen s num new)

include f

theorem on : v ∈ s.stk := by
  rw [f.grown.stk]
  simp

theorem above (hw : w ∈ new) : w ∈ s.stk := by
  rw [f.grown.stk]
  simp [hw]

theorem ne (hw : w ∈ new) : w ≠ v := by
  rintro rfl
  have nodup := (List.nodup_append.mp f.inv.nodup).1
  rw [f.grown.stk] at nodup
  have apart := (List.nodup_append.mp (List.nodup_append.mp nodup).1).2.2
  exact apart w hw w List.mem_cons_self rfl

theorem met (edge : Met num s v u) : Frame neighbors n v s0 num0 (seen ++ [u]) s num new :=
  ⟨f.inv, f.grown, f.root, f.down, f.settled, fun x hx => (List.mem_append.mp hx).elim (f.edges x)
    fun hx => List.mem_singleton.mp hx ▸ edge⟩

/-- Lowering `v` after a look at `u` on the stack. -/
theorem lower (fresh : s0.low v = -1) (hu : u ∈ s.stk) (edge : u ∈ neighbors v)
    (floor : ∀ w ∈ new, min (s.low v) (s.low u) ≤ s.low w) :
    Frame neighbors n v s0 num0 (seen ++ [u]) (s.lower v u) num new ∧ Floor v (s.lower v u) new := by
  obtain ⟨stk, index, -, -, sccList, -⟩ := lower_fields (s := s) (v := v) (u := u)
  have closed : (s.lower v u).closed = s.closed := congrArg List.flatten sccList
  have less : ∀ w, (s.lower v u).low w ≤ s.low w := by
    intro w
    by_cases same : w = v
    · rw [same, lower_self]
      exact min_le_left _ _
    · rw [lower_other same]
  have still : ∀ w x, Met num s w x → Met num (s.lower v u) w x := by
    rintro w x (found | ⟨on, le⟩)
    · exact .inl (closed.symm ▸ found)
    · exact .inr ⟨stk.symm ▸ on, (less w).trans le⟩
  have grown : Grown s0 num0 (s.lower v u) num (new ++ [v]) := by
    refine ⟨stk.trans f.grown.stk, fun w known => ?_, f.grown.later, index.symm ▸ f.grown.index,
      closed.symm ▸ f.grown.found⟩
    have other : w ≠ v := by
      rintro rfl
      exact known fresh
    rw [lower_other other]
    exact f.grown.kept w known
  have moved : Frame neighbors n v s0 num0 seen (s.lower v u) num new :=
    ⟨f.inv.lower f.on hu edge, grown, f.root, f.down,
      fun w hw => ⟨(less w).trans_lt (f.settled w hw).low, fun x hx => still w x ((f.settled w hw).edges x hx)⟩,
      fun x hx => still v x (f.edges x hx)⟩
  constructor
  · apply moved.met
    right
    rw [stk, lower_self]
    exact ⟨hu, (min_le_right _ _).trans (f.inv.low u hu).1⟩
  · intro w hw
    rw [lower_self, lower_other (f.ne hw)]
    exact floor w hw

/-- What a call for a neighbour has pushed comes on top. -/
theorem call (edge : u ∈ neighbors v) (called : Called neighbors n u s num s1 num1 new1) :
    Frame neighbors n v s0 num0 seen s1 num1 (new1 ++ new) := by
  have known : ∀ w ∈ new ++ [v], s.low w ≠ -1 := by
    intro w hw
    apply f.inv.visited
    rw [f.grown.stk]
    exact List.mem_append.mpr (.inl hw)
  refine ⟨called.inv, ?_, ?_, fun w hw => ?_, fun w hw => ?_, fun x hx => ?_⟩
  · rw [List.append_assoc]
    exact f.grown.trans called.grown known
  · rw [(called.grown.kept v (f.inv.visited f.on)).2]
    exact f.root
  · rcases List.mem_append.mp hw with hw | hw
    · exact .head edge (called.down w hw)
    · exact f.down w hw
  · rcases List.mem_append.mp hw with hw | hw
    · exact called.settled w hw
    · exact (f.settled w hw).mono f.inv called.grown (f.above hw)
  · exact (f.edges x hx).mono f.inv called.grown f.on

end Frame

end Edges

section Finish

variable (f : Frame neighbors n v s0 num0 (neighbors v) s num new) (floor : Floor v s new)

include f floor

/-- The call for a node which can get lower leaves it on the stack. -/
theorem Frame.stays (low : s.low v ≠ s0.index) : Called neighbors n v s0 num0 s num (new ++ [v]) where
  inv := f.inv
  grown := f.grown
  down := by
    intro w hw
    rcases List.mem_append.mp hw with hw | hw
    · exact f.down w hw
    · rw [List.mem_singleton.mp hw]
  settled := by
    intro w hw
    rcases List.mem_append.mp hw with hw | hw
    · exact f.settled w hw
    · rw [List.mem_singleton.mp hw]
      refine ⟨lt_of_le_of_ne (f.inv.low v f.on).1 ?_, f.edges⟩
      rw [f.root]
      exact low
  floor := by
    intro w hw
    rcases List.mem_append.mp hw with hw | hw
    · exact floor w hw
    · rw [List.mem_singleton.mp hw]
  ending := .inr (List.mem_append.mpr (.inr List.mem_cons_self))

/-- The nodes above a root are the rest of its component. -/
theorem Frame.component (low : s.low v = s0.index) (start : ∀ w ∈ s0.stk, num w < s0.index) :
    (∀ a ∈ new ++ [v], ∀ b, leads neighbors a b → b ∈ new ++ [v] ∨ b ∈ s.closed) ∧
      Component (leads neighbors) (new ++ [v]) := by
  have apart : ∀ a ∈ new ++ [v], a ∉ s.closed := by
    intro a ha found
    have on : a ∈ s.stk := by
      rw [f.grown.stk]
      exact List.mem_append.mpr (.inl ha)
    exact (List.nodup_append.mp f.inv.nodup).2.2 a on a found rfl
  have high : ∀ a ∈ new ++ [v], s0.index ≤ s.low a := by
    intro a ha
    rcases List.mem_append.mp ha with ha | ha
    · exact low ▸ floor a ha
    · rw [List.mem_singleton.mp ha, low]
  -- a node of the stack which is not below the root is among these
  have among : ∀ b ∈ s.stk, s0.index ≤ num b → b ∈ new ++ [v] := by
    intro b hb le
    rw [f.grown.stk] at hb
    rcases List.mem_append.mp hb with hb | hb
    · exact hb
    · exact absurd (start b hb) (not_lt.mpr le)
  have edges : ∀ a ∈ new ++ [v], ∀ b, leads neighbors a b → b ∈ new ++ [v] ∨ b ∈ s.closed := by
    intro a ha b edge
    have met : Met num s a b := by
      rcases List.mem_append.mp ha with ha | ha
      · exact (f.settled a ha).edges b edge
      · rw [List.mem_singleton.mp ha] at edge ⊢
        exact f.edges b edge
    rcases met with found | ⟨on, le⟩
    · exact .inr found
    · exact .inl (among b on ((high a ha).trans le))
  have down : ∀ a ∈ new ++ [v], Reach (leads neighbors) v a := by
    intro a ha
    rcases List.mem_append.mp ha with ha | ha
    · exact f.down a ha
    · rw [List.mem_singleton.mp ha]
  have descend : ∀ a ∈ new ++ [v], a ≠ v →
      ∃ b ∈ new ++ [v], (num b).toNat < (num a).toNat ∧ Reach (leads neighbors) a b := by
    intro a ha other
    have above : a ∈ new := by
      rcases List.mem_append.mp ha with ha | ha
      · exact ha
      · exact absurd (List.mem_singleton.mp ha) other
    obtain ⟨-, b, hb, same, path⟩ := f.inv.low a (f.above above)
    have less := (f.settled a above).low
    have positive := (f.inv.bounds b hb).1
    exact ⟨b, among b hb (same ▸ high a ha), by omega, path⟩
  exact ⟨edges, component_of_root (List.mem_append.mpr (.inr List.mem_cons_self)) apart f.inv.shut edges down
    (reach_root descend)⟩

end Finish

section Close

/-- Popping a part of the stack with `v` at its end. -/
theorem popTo_eq {rest : List Key} (away : v ∉ new) (room : s.sccCount < s.sccList.length) :
    popTo v (new ++ v :: rest) s = { s with
      stk := rest
      instack := fun w => if w ∈ new ++ [v] then false else s.instack w
      sccList := s.sccList.modify s.sccCount (· ++ (new ++ [v])) } := by
  have inside : decide (s.sccList.length ≤ s.sccCount) = false := by simpa using room
  induction new generalizing s with
  | nil =>
      have flags : Function.update s.instack v false = fun w => if w ∈ [v] then false else s.instack w := by
        funext w
        simp [Function.update_apply]
      simp [popTo, inside, flags]
  | cons j new ih =>
      obtain ⟨ne, away⟩ := not_or.mp (List.mem_cons.not.mp away)
      rw [List.cons_append, popTo, if_neg (Ne.symm ne)]
      rw [ih away (by simpa using room) (by simpa using room)]
      simp only [inside, Bool.or_false, List.modify_modify_eq]
      congr 1
      · funext w
        by_cases top : w = j
        · simp [top]
        · simp [top, Function.update_of_ne]
      · congr 1
        funext C
        simp

/-- The state after a component has been popped off the stack. -/
theorem Frame.close_eq (f : Frame neighbors n v s0 num0 seen s num new) {comps : List (List Key)}
    (listed : s.sccList = comps ++ [[]]) :
    s.close v = { s with
      stk := s0.stk
      instack := fun w => if w ∈ new ++ [v] then false else s.instack w
      sccCount := s.sccCount + 1
      sccList := comps ++ [new ++ [v]] ++ [[]] } := by
  have count := f.inv.count
  have room : s.sccCount < s.sccList.length := by omega
  have last : s.sccCount = comps.length := by
    rw [listed, List.length_append, List.length_singleton] at count
    omega
  have stk : s.stk = new ++ v :: s0.stk := by rw [f.grown.stk, List.append_assoc, List.singleton_append]
  have popped : popTo v (new ++ v :: s0.stk) s = _ := popTo_eq (fun member => f.ne member rfl) room
  have written : s.sccList.modify s.sccCount (· ++ (new ++ [v])) = comps ++ [new ++ [v]] := by
    rw [listed, last, List.modify_eq_take_cons_drop (by simp)]
    simp
  rw [close, stk, popped, written]

/-- The component popped is found. -/
theorem Frame.closed_close (f : Frame neighbors n v s0 num0 seen s num new) :
    (s.close v).closed = s.closed ++ (new ++ [v]) := by
  obtain ⟨comps, listed, -⟩ := f.inv.listed
  rw [f.close_eq listed]
  simp [Tarjan.closed, listed]

/-- What is below the call on the stack has been kept. -/
theorem Frame.below (f : Frame neighbors n v s0 num0 seen s num new) (inv : Inv neighbors n num0 s0)
    (hw : w ∈ s0.stk) : s.low w = s0.low w ∧ num w = num0 w := f.grown.kept w (inv.visited hw)

theorem Frame.apart (f : Frame neighbors n v s0 num0 seen s num new) :
    ∀ a ∈ new ++ [v], a ∉ s.closed ∧ a ∉ s0.stk := by
  have nodup := f.inv.nodup
  rw [f.grown.stk, List.append_assoc] at nodup
  intro a ha
  have away := (List.nodup_append.mp nodup).2.2 a ha
  exact ⟨fun member => away a (List.mem_append.mpr (.inr member)) rfl,
    fun member => away a (List.mem_append.mpr (.inl member)) rfl⟩

/-- The invariant after a component has been popped off the stack. -/
theorem Frame.inv_close (f : Frame neighbors n v s0 num0 seen s num new) (inv : Inv neighbors n num0 s0)
    (edges : ∀ a ∈ new ++ [v], ∀ b, leads neighbors a b → b ∈ new ++ [v] ∨ b ∈ s.closed)
    (component : Component (leads neighbors) (new ++ [v])) : Inv neighbors n num (s.close v) := by
  obtain ⟨comps, listed, components, ordered⟩ := f.inv.listed
  have stk := f.grown.stk
  have found : s.closed = comps.flatten := by simp [closed, listed]
  constructor
  case sound =>
    rw [f.close_eq listed]
    exact f.inv.sound
  case count =>
    have count := f.inv.count
    rw [f.close_eq listed]
    rw [listed] at count
    simpa using count
  case listed =>
    rw [f.close_eq listed]
    refine ⟨comps ++ [new ++ [v]], rfl, fun C hC => ?_, ?_⟩
    · rcases List.mem_append.mp hC with hC | hC
      · exact components C hC
      · rw [List.mem_singleton.mp hC]
        exact component
    · apply ordered_append ordered
      · rw [← found]
        exact f.inv.shut
      · rw [← found]
        exact fun a ha => (f.apart a ha).1
  case shut =>
    rw [f.closed_close]
    exact closed_append f.inv.shut edges
  case nodup =>
    have nodup := f.inv.nodup
    rw [stk, List.append_assoc] at nodup
    rw [f.closed_close, f.close_eq listed]
    refine (List.Perm.nodup_iff ?_).mp nodup
    rw [← List.append_assoc s0.stk]
    exact List.perm_append_comm
  case seen =>
    intro w
    rw [f.closed_close, f.close_eq listed]
    dsimp only
    rw [f.inv.seen w, stk]
    simp only [List.mem_append]
    tauto
  case nodes =>
    rw [f.close_eq listed]
    exact f.inv.nodes
  case onStack =>
    intro w
    rw [f.close_eq listed]
    dsimp only
    by_cases popped : w ∈ new ++ [v]
    · simp only [popped, if_true]
      exact iff_of_false (by simp) (f.apart w popped).2
    · simp only [popped, if_false, f.inv.onStack w, stk, List.mem_append, false_or]
  case sorted =>
    have sorted := f.inv.sorted
    rw [stk] at sorted
    rw [f.close_eq listed]
    exact (List.pairwise_append.mp sorted).2.1
  case bounds =>
    intro w hw
    rw [f.close_eq listed] at hw ⊢
    exact f.inv.bounds w (by rw [stk]; exact List.mem_append.mpr (.inr hw))
  case index =>
    rw [f.close_eq listed]
    exact f.inv.index
  case low =>
    intro w hw
    rw [f.close_eq listed] at hw ⊢
    -- what `w` gets to was on the stack before
    obtain ⟨le, x, hx, at_, path⟩ := inv.low w hw
    obtain ⟨low', num'⟩ := f.below inv hw
    rw [low', num']
    exact ⟨le, x, hx, (f.below inv hx).2.trans at_, path⟩

/-- The call for a node which cannot get lower finds its component. -/
theorem Frame.closes (f : Frame neighbors n v s0 num0 (neighbors v) s num new) (floor : Floor v s new)
    (inv : Inv neighbors n num0 s0) (low : s.low v = s0.index) :
    Called neighbors n v s0 num0 (s.close v) num [] := by
  obtain ⟨comps, listed, -⟩ := f.inv.listed
  have start : ∀ w ∈ s0.stk, num w < s0.index := by
    intro w hw
    rw [(f.below inv hw).2]
    exact (inv.bounds w hw).2
  obtain ⟨edges, component⟩ := f.component floor low start
  have low_eq : (s.close v).low = s.low := by rw [f.close_eq listed]
  refine ⟨f.inv_close inv edges component, ?_, by simp, by simp, by simp, .inl ⟨rfl, ?_, ?_⟩⟩
  · refine ⟨by rw [f.close_eq listed]; rfl, ?_, by simp, ?_, ?_⟩
    · rw [low_eq]
      exact f.grown.kept
    · rw [f.close_eq listed]
      exact f.grown.index
    · rw [f.closed_close]
      exact fun w hw => List.mem_append.mpr (.inl (f.grown.found hw))
  · rw [f.closed_close]
    simp
  · rw [low_eq, low]

end Close

end Tarjan

end CuckooGraph
