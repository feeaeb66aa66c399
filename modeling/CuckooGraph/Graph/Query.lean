import CuckooGraph.Graph.Invariant

/-! # Queries

A query asks the first `bSlot` of the source, in each link and then in
`blacklist`. There being one only, it is this one which answers.
-/

namespace CuckooGraph

open TwoLayer

namespace Holemerge

variable {α : Type} [Entry α] {E : Env} {m : Memory α} {h : Holemerge α} {src : Key} {t : BCuckoo α}

section Layers

variable (framed : h.Framed E) (ht : t ∈ h.link.toList)

include framed ht

theorem home_cell {flag : Bool} {s : BSlot α} (member : s ∈ (h.home E t flag src).2.cells) (same : s.src = src) :
    s ∈ t.cells := by
  rw [home_eq s same] at member
  exact Table.mem_of_bucketOf (framed.ready ht) member

/-- A `bSlot` of the source in its bucket is one of the graph. -/
theorem home_mem (known : src ≠ 0) {flag : Bool} {s : BSlot α} (member : s ∈ (h.home E t flag src).2.cells)
    (same : s.src = src) : s ∈ t.stored (h.slotCells E) := by
  have inTable := home_cell framed ht member same
  refine (Table.mem_stored t).mpr ⟨inTable, ?_⟩
  by_contra vacant
  have empty : s.isSlotEmpty = true := by
    change ¬ s.isSlotEmpty = false at vacant
    simpa using vacant
  exact known (same ▸ (framed.tidy t ht s inTable).src_eq_zero.mpr empty)

/-- What is found in the bucket of the source is a `bSlot` of the graph. -/
theorem home_find (known : src ≠ 0) {flag : Bool} {s : BSlot α}
    (here : (h.home E t flag src).2.cells.find? (fun s => s.src == src) = some s) :
    s ∈ t.stored (h.slotCells E) ∧ s.src = src := by
  have same : s.src = src := by simpa using List.find?_some here
  exact ⟨home_mem framed ht known (List.mem_of_find?_eq_some here) same, same⟩

theorem mem_home {s : BSlot α} (hs : s ∈ t.stored (h.slotCells E)) (same : s.src = src) :
    ∃ flag, s ∈ (h.home E t flag src).2.cells := by
  obtain ⟨flag, inBucket⟩ := Table.mem_bucketOf (framed.placed t ht) hs fun _ => rfl
  exact ⟨flag, by rwa [home_eq s same]⟩

/-- A `bSlot` of the table is found in one of its buckets. -/
theorem find_home {s : BSlot α} (hs : s ∈ t.stored (h.slotCells E)) (same : s.src = src) :
    ∃ flag s', (h.home E t flag src).2.cells.find? (fun s => s.src == src) = some s' := by
  obtain ⟨flag, inBucket⟩ := mem_home framed ht hs same
  have some : ((h.home E t flag src).2.cells.find? fun s => s.src == src).isSome :=
    List.find?_isSome.mpr ⟨s, inBucket, beq_iff_eq.mpr same⟩
  exact ⟨flag, Option.isSome_iff_exists.mp some⟩

end Layers

variable {ρ : Type} [Zero ρ] [DecidableEq ρ] {f : BSlot α → ρ}

theorem queryLayer_ne_zero {flag : Bool} (answer : h.queryLayer E f src t flag ≠ 0) :
    h.queryIn E f src t ≠ 0 := by
  unfold queryIn
  split
  · assumption
  · cases flag
    · exact answer
    · contradiction

theorem queryIn_ne_zero {i : Nat} (ht : (i, t) ∈ h.tables) (answer : h.queryIn E f src t ≠ 0) :
    h.ask E f src ≠ 0 := by
  unfold ask
  split
  · rename_i ans answered
    simpa using List.find?_some answered
  · rename_i silent
    have zero := List.find?_eq_none.mp silent _ (List.mem_map.mpr ⟨(i, t), ht, rfl⟩)
    exact absurd (by simpa using zero) answer

section Answers

variable (framed : h.Framed E) (known : src ≠ 0)

include framed known

omit [DecidableEq ρ] in
theorem queryLayer_cases (ht : t ∈ h.link.toList) (flag : Bool) :
    (∃ s ∈ t.stored (h.slotCells E), s.src = src ∧ h.queryLayer E f src t flag = f s) ∨
      h.queryLayer E f src t flag = 0 := by
  unfold queryLayer
  split
  · rename_i s here
    obtain ⟨hs, same⟩ := home_find framed ht known here
    exact .inl ⟨s, hs, same, rfl⟩
  · exact .inr rfl

/-- Whatever the answer, a `bSlot` of the source gives it. -/
theorem ask_cases : (∃ s ∈ h.slots E, s.src = src ∧ h.ask E f src = f s) ∨ h.ask E f src = 0 := by
  unfold ask
  split
  · rename_i ans answered
    obtain ⟨⟨i, t⟩, inside, rfl⟩ := List.mem_map.mp (List.mem_of_find?_eq_some answered)
    have ht := Three.mem_toList.mpr ⟨i, framed.mem_tables.mp inside⟩
    have layer : ∀ flag, (∃ s ∈ h.slots E, s.src = src ∧ h.queryLayer E f src t flag = f s) ∨
        h.queryLayer E f src t flag = 0 := by
      intro flag
      rcases queryLayer_cases (f := f) framed known ht flag with ⟨s, hs, same, answer⟩ | zero
      · exact .inl ⟨s, Multiset.mem_add.mpr (.inl (Three.mem_stored.mpr ⟨t, ht, hs⟩)), same, answer⟩
      · exact .inr zero
    simp only [queryIn]
    split
    · exact layer true
    · exact layer false
  · split
    · rename_i s found
      exact .inl ⟨s, mem_slots.mpr (.inr (List.mem_of_find?_eq_some found)),
        by simpa using List.find?_some found, rfl⟩
    · exact .inr rfl

/-- No `bSlot` of the source, no answer. -/
theorem ask_absent (absent : ∀ s ∈ h.slots E, s.src ≠ src) : h.ask E f src = 0 := by
  rcases ask_cases (f := f) framed known with ⟨s, hs, same, -⟩ | zero
  · exact absurd same (absent s hs)
  · exact zero

/-- The `bSlot` of the source answers for the graph. -/
theorem ask_eq (o : Homed E m h) {s : BSlot α} (hs : s ∈ h.slots E) (same : s.src = src) :
    h.ask E f src = f s := by
  have only : ∀ s' ∈ h.slots E, s'.src = src → s' = s := fun s' hs' same' =>
    o.unique hs' hs (same'.trans same.symm)
  rcases ask_cases (f := f) framed known with ⟨s', hs', same', answer⟩ | zero
  · rw [answer, only s' hs' same']
  · by_contra wrong
    rw [zero] at wrong
    rcases Multiset.mem_add.mp hs with linked | listed
    · -- its layer would have answered
      obtain ⟨t, ht, member⟩ := Three.mem_stored.mp linked
      obtain ⟨i, there⟩ := Three.mem_toList.mp ht
      obtain ⟨flag, s', here⟩ := find_home framed ht member same
      obtain ⟨hs', same'⟩ := home_find framed ht known here
      have is : s' = s :=
        only s' (Multiset.mem_add.mpr (.inl (Three.mem_stored.mpr ⟨t, ht, hs'⟩))) same'
      have answer : h.queryLayer E f src t flag ≠ 0 := by
        simp only [queryLayer, here, is]
        exact fun none => wrong none.symm
      exact queryIn_ne_zero (framed.mem_tables.mpr there) (queryLayer_ne_zero answer) zero
    · unfold ask at zero
      split at zero
      · rename_i ans answered
        have nonzero := List.find?_some answered
        simp [zero] at nonzero
      · have found : (h.blacklist.find? fun s => s.src == src).isSome :=
          List.find?_isSome.mpr ⟨s, listed, beq_iff_eq.mpr same⟩
        obtain ⟨s', here⟩ := Option.isSome_iff_exists.mp found
        have is : s' = s := only s' (mem_slots.mpr (.inr (List.mem_of_find?_eq_some here)))
          (by simpa using List.find?_some here)
        simp only [here, is] at zero
        exact wrong zero.symm

end Answers

end Holemerge

end CuckooGraph
