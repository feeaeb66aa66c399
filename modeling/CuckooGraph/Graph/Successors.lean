import CuckooGraph.Graph.Query

/-! # Enumerating successors

`query_successor` writes the successors of a source into an array, `GetNeighbors`
returns them as a vector. Both scan everything the `bSlot` of the source has,
where a query follows the hash of one destination.
-/

namespace CuckooGraph

open TwoLayer

/-- An array which is large enough. -/
abbrev Buffer := Nat → Key

namespace Buffer

/-- `successor[r] = d; ++r;` -/
def push (s : Buffer × Nat) (d : Key) : Buffer × Nat := (Function.update s.1 s.2 d, s.2 + 1)

/-- Write ids from `U` on; the number of ids written is returned. -/
def write (buf : Buffer) (U : Nat) (ids : List Key) : Buffer × Nat :=
  let (buf, r) := ids.foldl push (buf, U)
  (buf, r - U)

/-- What the array holds in `[U, U + r)`. -/
def slice (buf : Buffer) (U r : Nat) : List Key := (List.range r).map fun i => buf (U + i)

theorem foldl_push (ids : List Key) (buf : Buffer) (U : Nat) :
    (ids.foldl push (buf, U)).2 = U + ids.length ∧
      slice (ids.foldl push (buf, U)).1 U ids.length = ids ∧
      ∀ i, i < U ∨ U + ids.length ≤ i → (ids.foldl push (buf, U)).1 i = buf i := by
  induction ids generalizing buf U with
  | nil => simp [slice]
  | cons d ids ih =>
      obtain ⟨next, written, kept⟩ := ih (Function.update buf U d) (U + 1)
      simp only [List.foldl_cons, push, List.length_cons]
      refine ⟨by rw [next]; omega, ?_, fun i outside => ?_⟩
      · have first := kept U (.inl (by omega))
        rw [Function.update_self] at first
        rw [slice, List.range_succ_eq_map, List.map_cons, List.map_map, Nat.add_zero]
        refine (congrArg (· :: _) first).trans (congrArg _ (Eq.trans (List.map_congr_left fun i _ => ?_) written))
        have shift : U + (i + 1) = U + 1 + i := by omega
        exact congrArg _ shift
      · rw [kept i (by omega), Function.update_of_ne (by omega)]

theorem write_spec (buf : Buffer) (U : Nat) (ids : List Key) :
    (write buf U ids).2 = ids.length ∧ slice (write buf U ids).1 U ids.length = ids ∧
      ∀ i, i < U ∨ U + ids.length ≤ i → (write buf U ids).1 i = buf i := by
  obtain ⟨next, written, kept⟩ := foldl_push ids buf U
  refine ⟨?_, written, kept⟩
  change (ids.foldl push (buf, U)).2 - U = _
  rw [next, Nat.add_sub_cancel_left]

end Buffer

variable {α : Type} [Entry α]

/-- The ids in the S-CHTs of a `bSlot`, each layer from its first cell to its
    last, and in `sblacklist`. -/
def scanChts (E : Env) (m : Memory α) (src : Key) (slot : Three Addr) : List Key :=
  (slot.toList.flatMap fun a =>
    match m.heap.get a with
    | some c => (c.items (chtCells E)).map Entry.dst
    | none => []) ++ (m.own src).map Entry.dst

theorem stored_view (E : Env) (m : Memory α) (slot : Three Addr) :
    (slot.map m.heap.get).stored (chtCells E) =
      (slot.toList.map fun a => (m.heap.get a).elim 0 fun c => c.stored (chtCells E)).sum := by
  obtain ⟨s0, s1, s2⟩ := slot
  have one : ∀ s : Option Addr, ((s.bind m.heap.get).toList.map fun c => c.stored (chtCells E)).sum =
      (s.toList.map fun a => (m.heap.get a).elim 0 fun c => c.stored (chtCells E)).sum := by
    intro s
    cases s with
    | none => rfl
    | some a => cases live : m.heap.get a <;> simp [live]
  simp only [Three.stored, Three.toList, Three.map, List.map_append, List.sum_append, one]

/-- A scan passes what the `bSlot` stores. -/
theorem coe_scanChts (E : Env) (m : Memory α) (src : Key) (slot : Three Addr) :
    (↑(scanChts E m src slot) : Multiset Key) = (chtItems E m src slot).map Entry.dst := by
  have tables : ∀ addrs : List Addr, (↑(addrs.flatMap fun a =>
      match m.heap.get a with
      | some c => (c.items (chtCells E)).map Entry.dst
      | none => []) : Multiset Key) =
        (addrs.map fun a => (m.heap.get a).elim 0 fun c => c.stored (chtCells E)).sum.map Entry.dst := by
    intro addrs
    induction addrs with
    | nil => rfl
    | cons a addrs ih =>
        rw [List.flatMap_cons, ← Multiset.coe_add, ih, List.map_cons, List.sum_cons, Multiset.map_add]
        cases m.heap.get a with
        | none => rfl
        | some c => exact congrArg (· + _) ((Multiset.map_coe _ _).symm.trans (congrArg _ Table.coe_items))
  rw [scanChts, ← Multiset.coe_add, tables, chtItems, stored_view, Multiset.map_add, Multiset.map_coe]

namespace Holemerge

variable (E : Env) (h : Holemerge α) (src : Key)

/-- The first `bSlot` of the source in one link: the buckets of both layers are
    looked through side by side. -/
def findIn (t : BCuckoo α) : Option (BSlot α) :=
  ((h.home E t true src).2.cells.zip (h.home E t false src).2.cells).findSome? fun (s1, s2) =>
    if s1.src == src then some s1 else if s2.src == src then some s2 else none

/-- The `bSlot` whose successors are listed. -/
def findSlot : Option (BSlot α) :=
  match h.tables.findSome? fun (_, t) => h.findIn E src t with
  | some s => some s
  | none => h.blacklist.find? fun s => s.src == src

variable {E h src} {m : Memory α} (framed : h.Framed E)

include framed

omit framed in
theorem findIn_cell {t : BCuckoo α} {s : BSlot α} (found : h.findIn E src t = some s) :
    s.src = src ∧ ∃ flag, s ∈ (h.home E t flag src).2.cells := by
  obtain ⟨⟨x, y⟩, pair, here⟩ := List.exists_of_findSome?_eq_some found
  obtain ⟨left, right⟩ := List.of_mem_zip pair
  dsimp only at here
  split at here
  · rename_i same
    cases here
    exact ⟨by simpa using same, true, left⟩
  · split at here
    · rename_i same
      cases here
      exact ⟨by simpa using same, false, right⟩
    · cases here

theorem findIn_some (known : src ≠ 0) {t : BCuckoo α} (ht : t ∈ h.link.toList) {s : BSlot α}
    (found : h.findIn E src t = some s) : s ∈ t.stored (h.slotCells E) ∧ s.src = src := by
  obtain ⟨same, flag, member⟩ := findIn_cell found
  exact ⟨home_mem framed ht known member same, same⟩

theorem findIn_none {t : BCuckoo α} (ht : t ∈ h.link.toList) (missing : h.findIn E src t = none)
    {s : BSlot α} (hs : s ∈ t.stored (h.slotCells E)) : s.src ≠ src := by
  intro same
  obtain ⟨flag, member⟩ := mem_home framed ht hs same
  obtain ⟨j, inside, here⟩ := List.mem_iff_getElem.mp member
  have width := fun flag => (h.home E t flag src).2.size
  have first : j < (h.home E t true src).2.cells.length := by
    rw [width true, ← width flag]
    exact inside
  have second : j < (h.home E t false src).2.cells.length := by
    rw [width false, ← width flag]
    exact inside
  have pair := List.findSome?_eq_none_iff.mp missing
    ((h.home E t true src).2.cells[j], (h.home E t false src).2.cells[j])
    (List.mem_iff_getElem.mpr ⟨j, by simpa using ⟨first, second⟩, List.getElem_zip⟩)
  subst here
  cases flag
  · by_cases other : (h.home E t true src).2.cells[j].src = src <;> simp [same, other] at pair
  · simp [same] at pair

/-- Whatever is found is tidy, even a free cell. -/
theorem findSlot_tidy {s : BSlot α} (found : h.findSlot E src = some s) : s.Tidy ∧ s.src = src := by
  unfold findSlot at found
  split at found
  · rename_i s' linked
    obtain rfl := Option.some.inj found
    obtain ⟨⟨i, t⟩, inside, here⟩ := List.exists_of_findSome?_eq_some linked
    have ht := Three.mem_toList.mpr ⟨i, framed.mem_tables.mp inside⟩
    obtain ⟨same, flag, member⟩ := findIn_cell here
    exact ⟨framed.tidy t ht s' (home_cell framed ht member same), same⟩
  · exact ⟨(framed.listed s (List.mem_of_find?_eq_some found)).1, by simpa using List.find?_some found⟩

/-- The `bSlot` of the source is the one whose successors are listed. -/
theorem findSlot_eq (o : Homed E m h) (known : src ≠ 0) {s : BSlot α} (hs : s ∈ h.slots E)
    (same : s.src = src) : h.findSlot E src = some s := by
  have only : ∀ s' ∈ h.slots E, s'.src = src → s' = s := fun s' hs' same' =>
    o.unique hs' hs (same'.trans same.symm)
  unfold findSlot
  split
  · rename_i s' found
    obtain ⟨⟨i, t⟩, inside, here⟩ := List.exists_of_findSome?_eq_some found
    have ht := Three.mem_toList.mpr ⟨i, framed.mem_tables.mp inside⟩
    obtain ⟨stored, same'⟩ := findIn_some framed known ht here
    rw [only s' (Multiset.mem_add.mpr (.inl (Three.mem_stored.mpr ⟨t, ht, stored⟩))) same']
  · rename_i nowhere
    rcases Multiset.mem_add.mp hs with linked | listed
    · obtain ⟨t, ht, stored⟩ := Three.mem_stored.mp linked
      obtain ⟨i, there⟩ := Three.mem_toList.mp ht
      have missing := List.findSome?_eq_none_iff.mp nowhere (i, t) (framed.mem_tables.mpr there)
      exact absurd same (findIn_none framed ht missing stored)
    · have found : (h.blacklist.find? fun s => s.src == src).isSome :=
        List.find?_isSome.mpr ⟨s, listed, beq_iff_eq.mpr same⟩
      obtain ⟨s', here⟩ := Option.isSome_iff_exists.mp found
      rw [here, only s' (mem_slots.mpr (.inr (List.mem_of_find?_eq_some here)))
        (by simpa using List.find?_some here)]

theorem findSlot_none (known : src ≠ 0) (absent : ∀ s ∈ h.slots E, s.src ≠ src) :
    h.findSlot E src = none := by
  unfold findSlot
  split
  · rename_i s found
    obtain ⟨⟨i, t⟩, inside, here⟩ := List.exists_of_findSome?_eq_some found
    have ht := Three.mem_toList.mpr ⟨i, framed.mem_tables.mp inside⟩
    obtain ⟨stored, same⟩ := findIn_some framed known ht here
    exact absurd same (absent s (Multiset.mem_add.mpr (.inl (Three.mem_stored.mpr ⟨t, ht, stored⟩))))
  · refine List.find?_eq_none.mpr fun s hs => ?_
    simpa using absent s (mem_slots.mpr (.inr hs))

end Holemerge

/-- The destinations of a source, each once. -/
def Lists (S : Finset Edge) (src : Key) (ids : List Key) : Prop := ids.Nodup ∧ ∀ d, d ∈ ids ↔ ⟨src, d⟩ ∈ S

/-- As many ids are listed as there are edges from the source. -/
theorem Lists.length {S : Finset Edge} {src : Key} {ids : List Key} (lists : Lists S src ids) :
    ids.length = (S.filter fun e => e.src = src).card := by
  obtain ⟨once, exactly⟩ := lists
  have same : ids.toFinset = (S.filter fun e => e.src = src).image Edge.dst := by
    ext d
    rw [List.mem_toFinset, exactly d, Finset.mem_image]
    constructor
    · exact fun here => ⟨⟨src, d⟩, Finset.mem_filter.mpr ⟨here, rfl⟩, rfl⟩
    · rintro ⟨e, he, rfl⟩
      obtain ⟨here, rfl⟩ := Finset.mem_filter.mp he
      exact here
  have apart : Set.InjOn Edge.dst (S.filter fun e => e.src = src : Finset Edge) := by
    intro e he e' he' equal
    have mine := (Finset.mem_filter.mp he).2
    have yours := (Finset.mem_filter.mp he').2
    cases e
    cases e'
    simp_all
  rw [← List.toFinset_card_of_nodup once, same, Finset.card_image_of_injOn apart]

end CuckooGraph
