import CuckooGraph.Graph.Successors
import CuckooGraph.Slot.Sharing
import CuckooGraph.Table.Contents

/-! # Graphs and a shared denylist

The links and `blacklist` of a graph are its own. What its calls see of the
entries of others is what the `bSlot`s which they come upon see.
-/

namespace CuckooGraph

open TwoLayer

namespace Holemerge

variable {α : Type} [Entry α] {P : BSlot α → Prop}

/-- All `bSlot`s of the graph have the property, and so have free cells. -/
structure Keeps (P : BSlot α → Prop) (h : Holemerge α) : Prop where
  blank : P BSlot.empty
  link : ∀ t ∈ h.link.toList, t.Only P
  blacklist : ∀ s ∈ h.blacklist, P s

variable {E : Env} {h : Holemerge α} {src : Key} {t : BCuckoo α}

section Lookup

theorem home_only (h : Holemerge α) (src : Key) (blank : P BSlot.empty) (only : t.Only P) (flag : Bool) :
    ∀ s ∈ (h.home E t flag src).2.cells, P s :=
  Layer.only_bucketAt (H := h.slotCells E) blank (Table.only_iff.mp only flag) _

omit [Entry α] in
theorem mem_link_of_tables {i : Nat} (ht : (i, t) ∈ h.tables) : t ∈ h.link.toList := by
  simp only [tables, List.mem_filterMap, Option.ite_none_right_eq_some] at ht
  obtain ⟨j, -, -, ht⟩ := ht
  obtain ⟨t', found, same⟩ := Option.map_eq_some_iff.mp ht
  cases same
  exact Three.mem_toList.mpr ⟨_, found⟩

theorem locate_keeps (keeps : h.Keeps P) {loc : Loc} {s : BSlot α} (found : h.locate E src = some (loc, s)) :
    P s ∧ s.src = src := by
  unfold locate at found
  split at found
  · rename_i linked
    cases found
    obtain ⟨⟨i, t⟩, inside, here⟩ := List.exists_of_findSome?_eq_some linked
    obtain ⟨⟨flag, ha, j, s'⟩, here, same⟩ := Option.map_eq_some_iff.mp here
    cases same
    obtain ⟨side, -, here⟩ := List.exists_of_findSome?_eq_some here
    obtain ⟨⟨s', j'⟩, here, same⟩ := Option.map_eq_some_iff.mp here
    cases same
    have member := List.fst_mem_of_mem_zipIdx (List.mem_of_find?_eq_some here)
    have only := home_only h src keeps.blank (keeps.link t (mem_link_of_tables inside)) _ _ member
    exact ⟨only, by simpa using List.find?_some here⟩
  · obtain ⟨⟨s', j⟩, here, same⟩ := Option.map_eq_some_iff.mp found
    cases same
    have member := List.fst_mem_of_mem_zipIdx (List.mem_of_find?_eq_some here)
    exact ⟨keeps.blacklist _ member, by simpa using List.find?_some here⟩

theorem findSlot_keeps (keeps : h.Keeps P) {s : BSlot α} (found : h.findSlot E src = some s) :
    P s ∧ s.src = src := by
  unfold findSlot at found
  split at found
  · rename_i linked
    cases found
    obtain ⟨⟨i, t⟩, inside, here⟩ := List.exists_of_findSome?_eq_some linked
    obtain ⟨⟨s1, s2⟩, both, here⟩ := List.exists_of_findSome?_eq_some here
    obtain ⟨first, second⟩ := List.of_mem_zip both
    have only := fun flag => home_only (E := E) h src keeps.blank
      (keeps.link t (mem_link_of_tables inside)) flag
    dsimp only at here
    split at here
    · rename_i same
      cases here
      exact ⟨only true _ first, by simpa using same⟩
    · split at here
      · rename_i same
        cases here
        exact ⟨only false _ second, by simpa using same⟩
      · cases here
  · have same := List.find?_some found
    exact ⟨keeps.blacklist s (List.mem_of_find?_eq_some found), by simpa using same⟩

/-- The answer of a query is that of a `bSlot` of the source. -/
theorem ask_congr {ρ : Type} [Zero ρ] [DecidableEq ρ] {f g : BSlot α → ρ} (keeps : h.Keeps P)
    (same : ∀ s, P s → s.src = src → f s = g s) : h.ask E f src = h.ask E g src := by
  have layers : ∀ t ∈ h.link.toList, ∀ flag,
      h.queryLayer E f src t flag = h.queryLayer E g src t flag := by
    intro t ht flag
    unfold queryLayer
    cases found : (h.home E t flag src).2.cells.find? fun s => s.src == src with
    | none => rfl
    | some s =>
        apply same
        · exact home_only h src keeps.blank (keeps.link t ht) flag s (List.mem_of_find?_eq_some found)
        · simpa using List.find?_some found
  have tables : h.tables.map (fun p => h.queryIn E f src p.2) = h.tables.map fun p => h.queryIn E g src p.2 := by
    apply List.map_congr_left
    rintro ⟨i, t⟩ ht
    have layers := layers t (mem_link_of_tables ht)
    simp only [queryIn, layers]
  unfold ask
  rw [tables]
  cases asked : (h.tables.map fun p => h.queryIn E g src p.2).find? (· ≠ 0) with
  | some ans => rfl
  | none =>
      cases found : h.blacklist.find? fun s => s.src == src with
      | none => rfl
      | some s =>
          apply same
          · exact keeps.blacklist s (List.mem_of_find?_eq_some found)
          · simpa using List.find?_some found

end Lookup

section Place

variable {O : SlotOps α} {F : List (Arc α)} {e : Arc α} {m₀ m : Memory α}

/-- `bSlot::insert` sees its own entries only. It may be called after some
    draws, but not after any other change of the memory `m₀`. -/
def Inserts (O : SlotOps α) (F : List (Arc α)) (m₀ : Memory α) (e : Arc α) (P : BSlot α → Prop) : Prop :=
  ∀ m₁ m s, m₁.heap = m₀.heap → m₁.sblacklist = m₀.sblacklist → Shares F m₁ m → P s →
    Agree F (O.insert m₁ s e) (O.insert m s e)

omit [Entry α] in
theorem Inserts.draw (inserts : Inserts O F m₀ e P) (rands : Nat) :
    Inserts O F { m₀ with rands := rands } e P := inserts

theorem insertBucket_agree (inserts : Inserts O F m₀ e P) (blank : P BSlot.empty) (shares : Shares F m₀ m)
    {b : Bucket bup (BSlot α)} (hb : ∀ s ∈ b.cells, P s) :
    Agree F (insertBucket O m₀ b e) (insertBucket O m b e) := by
  have getD : ∀ i, P (b.cells.getD i BSlot.empty) := by
    intro i
    rw [List.getD_eq_getElem?_getD]
    cases found : b.cells[i]? with
    | none => exact blank
    | some s => exact hb s (List.mem_of_getElem? found)
  have scan : (b.cells.findIdx? fun s => (O.insert m s e).2.2 != 0) =
      b.cells.findIdx? fun s => (O.insert m₀ s e).2.2 != 0 := by
    apply findIdx?_congr
    intro s hs
    rw [(inserts m₀ m s rfl rfl shares (hb s hs)).2]
  unfold insertBucket
  split
  · rename_i i _
    obtain ⟨shared, same⟩ := inserts m₀ m _ rfl rfl shares (getD i)
    exact ⟨shared, by simp only [same]⟩
  · rw [scan]
    split
    · rename_i i _
      obtain ⟨shared, same⟩ := inserts m₀ m _ rfl rfl shares (getD i)
      exact ⟨shared, by simp only [same]⟩
    · exact ⟨shares, rfl⟩

theorem insertEdge_agree (inserts : Inserts O F m₀ e P) (blank : P BSlot.empty) (shares : Shares F m₀ m)
    (only : t.Only P) : Agree F (insertEdge E O h m₀ t e) (insertEdge E O h m t e) := by
  obtain ⟨shared1, same1⟩ := insertBucket_agree inserts blank shares
    (home_only (E := E) h e.src blank only true)
  unfold insertEdge
  simp only [same1]
  split
  · exact ⟨shared1, rfl⟩
  · obtain ⟨shared2, same2⟩ := insertBucket_agree inserts blank shares
      (home_only (E := E) h e.src blank only false)
    simp only [same2]
    split
    · exact ⟨shared2, rfl⟩
    · obtain ⟨shared, same⟩ := inserts m₀ m BSlot.empty rfl rfl shares blank
      simp only [same, shared.rands]
      exact ⟨⟨shared.heap, rfl, shared.fault, shared.list⟩, rfl⟩

theorem insertInto_agree (inserts : Inserts O F m₀ e P) (blank : P BSlot.empty) (shares : Shares F m₀ m)
    {i : Nat} (only : t.Only P) : Agree F (insertInto E O m₀ h i t e) (insertInto E O m h i t e) := by
  obtain ⟨shared, same⟩ := insertEdge_agree (h := h) (E := E) inserts blank shares only
  unfold insertInto
  simp only [same]
  exact ⟨shared, rfl⟩

theorem openLink_agree (inserts : Inserts O F m₀ e P) (blank : P BSlot.empty) (shares : Shares F m₀ m)
    (listed : ∀ s ∈ h.blacklist, P s) (i l1 l2 : Nat) :
    Agree F (openLink E O m₀ h i l1 l2 e) (openLink E O m h i l1 l2 e) := by
  obtain ⟨only, -⟩ := Table.only_insertAll (H := h.slotCells E) blank kicktimes E.rand listed
    m₀.rands (Table.only_new (H := h.slotCells E) (w := bup) blank l1 l2)
  unfold openLink
  simp only [shares.rands]
  exact insertInto_agree (inserts.draw _) blank (shares.draw _) only

omit [Entry α] in
theorem roomyLink_get {i : Nat} (found : h.roomyLink = some (i, t)) : t ∈ h.link.toList := by
  obtain ⟨j, -, here⟩ := List.exists_of_findSome?_eq_some found
  split at here
  · rename_i t' linked
    simp only [Option.ite_none_right_eq_some] at here
    cases here.2
    exact Three.mem_toList.mpr ⟨_, linked⟩
  · cases here

/-- A new source. -/
theorem place_agree (inserts : Inserts O F m₀ e P) (shares : Shares F m₀ m) (keeps : h.Keeps P) :
    Agree F (place E O m₀ h e) (place E O m h e) := by
  have blank := keeps.blank
  have linked : ∀ {i : Nat} {t : BCuckoo α}, h.link.get i = some t → t.Only P := fun {i t} found =>
    keeps.link t (Three.mem_toList.mpr ⟨i, found⟩)
  have roomy : ∀ {i : Nat} {t : BCuckoo α}, h.roomyLink = some (i, t) → t.Only P := fun found =>
    keeps.link _ (roomyLink_get found)
  unfold place
  split
  · exact insertInto_agree inserts blank shares (Table.only_new (H := h.slotCells E) blank _ _)
  · split
    · split
      · rename_i t0 found
        split
        · exact openLink_agree inserts blank shares keeps.blacklist 1 _ _
        · exact insertInto_agree inserts blank shares (linked (i := 0) found)
      · exact ⟨shares.crash, rfl⟩
    · split
      · split
        · rename_i i t found
          exact insertInto_agree inserts blank shares (roomy found)
        · split
          · exact openLink_agree inserts blank shares keeps.blacklist 2 _ _
          · exact ⟨shares.crash, rfl⟩
      · split
        · split
          · rename_i i t found
            exact insertInto_agree inserts blank shares (roomy found)
          · split
            · rename_i c0 c1 c2 h0 h1 h2
              obtain ⟨-, left⟩ := Table.only_merge (H := h.slotCells E) blank kicktimes E.rand
                m₀.rands (linked (i := 0) h0) (linked (i := 1) h1) (linked (i := 2) h2)
              simp only [shares.rands]
              refine openLink_agree (inserts.draw _) blank (shares.draw _) ?_ 1 _ _
              intro s hs
              cases List.mem_append.mp hs with
              | inl old => exact keeps.blacklist s old
              | inr new => exact left s new
            · exact ⟨shares.crash, rfl⟩
        · exact ⟨shares.crash, rfl⟩

end Place

end Holemerge

end CuckooGraph
