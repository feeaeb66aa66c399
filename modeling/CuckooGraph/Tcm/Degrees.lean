import CuckooGraph.Tcm.Estimates

/-! # The degrees of `TCM`

`nodedegreequery` looks the names of the neighbours up by the number of their column
or row, where `insert` has put them under their hash value. So it counts only the
names whose hash value is so small that it is the number itself.
-/

namespace CuckooGraph.Tcm

open CountMin

variable {P : Params} {hfunc : Nat → String → UInt32} {items : List (String × String × Int)}

/-- The names with their hash values. -/
def entries (hfunc : Nat → String → UInt32) (items : List (String × String × Int)) (i : Nat) : List (Nat × String) :=
  items.flatMap fun e => [((hfunc i e.1).toNat, e.1), ((hfunc i e.2.1).toNat, e.2.1)]

theorem foldl_insertRow_mapTable (useT : P.usetable = true) (v1 v2 : String) (weight : Int) (t : Tcm) (i : Nat)
    {rows : List Nat} (once : rows.Nodup) :
    (rows.foldl (insertRow P hfunc v1 v2 weight) t).mapTable i =
      if i ∈ rows then ((t.mapTable i).insert (hfunc i v1).toNat v1).insert (hfunc i v2).toNat v2 else t.mapTable i := by
  induction rows generalizing t with
  | nil => simp
  | cons row rows ih =>
      obtain ⟨new, once⟩ := List.nodup_cons.mp once
      rw [List.foldl_cons, ih _ once, insertRow, if_pos useT]
      by_cases here : i = row
      · subst here
        simp [new]
      · simp [here]

/-- The table of names of a matrix after a run. -/
theorem inserts_mapTable (useT : P.usetable = true) {i : Nat} (hi : i < P.hashnum) :
    (inserts P hfunc items).mapTable i = (HashTable.init P.tablesize).insertAll (entries hfunc items i) := by
  induction items using List.reverseRecOn with
  | nil => simp [inserts, new, useT, entries, HashTable.insertAll]
  | append_singleton items item ih =>
      have grown : entries hfunc (items ++ [item]) i =
          entries hfunc items i ++ [((hfunc i item.1).toNat, item.1), ((hfunc i item.2.1).toNat, item.2.1)] := by
        simp [entries]
      rw [inserts, List.foldl_append, List.foldl_cons, List.foldl_nil, insert,
        foldl_insertRow_mapTable useT _ _ _ _ _ List.nodup_range, if_pos (List.mem_range.mpr hi), ← inserts, ih, grown,
        HashTable.insertAll, HashTable.insertAll, List.foldl_append]
      rfl

/-- What is counted under a number: the names with this hash value. -/
theorem countIDnums_inserts (useT : P.usetable = true) {i : Nat} (hi : i < P.hashnum) (j : Nat) :
    ((inserts P hfunc items).mapTable i).countIDnums j =
      ((names items).toFinset.filter fun x => (hfunc i x).toNat = j).card := by
  have nodup : (((inserts P hfunc items).mapTable i).getID j).Nodup := by
    rw [inserts_mapTable useT hi]
    exact ((HashTable.chained_init _).insertAll _).nodup_getID j
  rw [HashTable.countIDnums_eq, ← List.toFinset_card_of_nodup nodup]
  congr 1
  ext x
  have fresh : x ∉ (HashTable.init P.tablesize : HashTable String).getID j := by
    rw [HashTable.mem_getID]
    exact List.not_mem_nil
  rw [List.mem_toFinset, inserts_mapTable useT hi, HashTable.mem_getID_insertAll, or_iff_right fresh, Finset.mem_filter,
    List.mem_toFinset]
  simp only [entries, names, List.mem_flatMap, List.mem_cons, List.not_mem_nil, or_false, Prod.mk.injEq]
  constructor
  · rintro ⟨e, he, ⟨rfl, rfl⟩ | ⟨rfl, rfl⟩⟩
    · exact ⟨⟨e, he, .inl rfl⟩, rfl⟩
    · exact ⟨⟨e, he, .inr rfl⟩, rfl⟩
  · rintro ⟨⟨e, he, rfl | rfl⟩, rfl⟩
    · exact ⟨e, he, .inl ⟨rfl, rfl⟩⟩
    · exact ⟨e, he, .inr ⟨rfl, rfl⟩⟩

section Lines

variable (type : Int) (i : Nat) (v1 : String)

/-- The other end of an edge. -/
def farOf (e : String × String) : String := if type = 0 then e.2 else e.1

/-- The number of a node among the cells of a line. -/
def across (P : Params) (hfunc : Nat → String → UInt32) (i : Nat) (x : String) : Nat :=
  if type = 0 then hash2 P hfunc i x else hash1 P hfunc i x

/-- The names which are counted as neighbours in matrix `i`: the hash value is the
    number of a cell to which an edge with a weight comes. -/
def counted (P : Params) (hfunc : Nat → String → UInt32) (items : List (String × String × Int)) : Finset String :=
  (names items).toFinset.filter fun x => ∃ e ∈ edges items,
    slot type P hfunc i (endOf type e.1) = slot type P hfunc i v1 ∧
      across type P hfunc i (farOf type e.1) = (hfunc i x).toNat ∧ 0 < e.2

theorem nodup_numbers : ((line P hfunc i v1 type).map Prod.fst).Nodup := by
  unfold line
  split <;> simpa [List.map_map, Function.comp_def] using List.nodup_range

/-- The places of a line with their numbers. -/
theorem place_line {c : Nat × Nat} (hc : c ∈ line P hfunc i v1 type) (e : String × String) :
    place P hfunc i e = c.2 ↔
      slot type P hfunc i (endOf type e) = slot type P hfunc i v1 ∧ across type P hfunc i (farOf type e) = c.1 := by
  unfold line at hc
  unfold slot endOf across farOf
  by_cases out : type = 0
  · simp only [out, if_true, List.mem_map, List.mem_range] at hc ⊢
    obtain ⟨j, hj, rfl⟩ := hc
    exact place_inj (hash2_lt i e.2) hj
  · simp only [out, if_false, List.mem_map, List.mem_range] at hc ⊢
    obtain ⟨j, -, rfl⟩ := hc
    exact (place_inj (hash2_lt i e.2) (hash2_lt i v1)).trans and_comm

theorem across_mem_line (x : String) : across type P hfunc i x ∈ (line P hfunc i v1 type).map Prod.fst := by
  unfold across line
  by_cases out : type = 0
  · simp [out, hash2_lt]
  · simp [out, hash1_lt]

variable {i}

theorem sum_counts (fits : Fits items) (useT : P.usetable = true) (hi : i < P.hashnum) :
    ((line P hfunc i v1 type).map fun c =>
      if (inserts P hfunc items).value i c.2 > 0 then (((inserts P hfunc items).mapTable i).countIDnums c.1 : Int)
      else 0).sum = (counted type i v1 P hfunc items).card := by
  have cell : ∀ c ∈ line P hfunc i v1 type,
      (if (inserts P hfunc items).value i c.2 > 0 then (((inserts P hfunc items).mapTable i).countIDnums c.1 : Int)
        else 0) = (((counted type i v1 P hfunc items).filter fun x => (hfunc i x).toNat = c.1).card : Int) := by
    intro c hc
    have filled : (inserts P hfunc items).value i c.2 > 0 ↔ ∃ e ∈ edges items,
        (slot type P hfunc i (endOf type e.1) = slot type P hfunc i v1 ∧
          across type P hfunc i (farOf type e.1) = c.1) ∧ 0 < e.2 := by
      rw [gt_iff_lt, inserts_value _ hi, load_pos fits.edges_nonneg]
      exact exists_congr fun e => and_congr_right fun _ => and_congr_left fun _ => place_line type i v1 hc e.1
    rw [counted, Finset.filter_filter, countIDnums_inserts useT hi]
    by_cases some : (inserts P hfunc items).value i c.2 > 0
    · rw [if_pos some]
      refine congrArg (fun s : Finset String => (s.card : Int)) (Finset.filter_congr fun x _ => ?_)
      obtain ⟨e, he, ⟨near, far⟩, weighs⟩ := filled.mp some
      exact ⟨fun same => ⟨⟨e, he, near, by rw [far, same], weighs⟩, same⟩, And.right⟩
    · rw [if_neg some, eq_comm, Nat.cast_eq_zero, Finset.card_eq_zero, Finset.filter_eq_empty_iff]
      rintro x - ⟨⟨e, he, near, far, weighs⟩, same⟩
      exact some (filled.mpr ⟨e, he, ⟨near, by rw [far, same]⟩, weighs⟩)
  -- a name is counted in the cell whose number is its hash value
  have fibers := Finset.card_eq_sum_card_fiberwise (f := fun x => (hfunc i x).toNat)
    (s := counted type i v1 P hfunc items) (t := ((line P hfunc i v1 type).map Prod.fst).toFinset) fun x hx => by
      obtain ⟨-, e, -, -, far, -⟩ := Finset.mem_filter.mp hx
      have number := @across_mem_line P hfunc type i v1 (farOf type e.1)
      rw [far] at number
      exact List.mem_toFinset.mpr number
  rw [List.map_congr_left cell, fibers, List.sum_toFinset _ (nodup_numbers type i v1), List.map_map]
  push_cast
  rw [List.map_map]
  rfl

end Lines

/-- The degree is the least number, over all matrices, of names which have an edge
    from or to the node and whose hash value is the number of a column or row. -/
theorem nodedegreequery_counts (fits : Fits items) (useT : P.usetable = true) (v1 : String) (type : Int) :
    nodedegreequery P hfunc (inserts P hfunc items) v1 type =
      ((List.range P.hashnum).map fun i => ((counted type i v1 P hfunc items).card : Int)).foldl min INT32_MAX := by
  have counts : ∀ i ∈ List.range P.hashnum, _ = ((counted type i v1 P hfunc items).card : Int) := fun i hi =>
    sum_counts type v1 fits useT (List.mem_range.mp hi)
  rw [nodedegreequery, least_eq]
  · exact congrArg (List.foldl min INT32_MAX) (List.map_congr_left counts)
  · intro i hi
    rw [counts i hi]
    exact Int.natCast_nonneg _

theorem nodedegreequery_counts_small :
    nodedegreequery small rolling (inserts small rolling sampleItems) "a" 0 =
      ((List.range small.hashnum).map fun i => ((counted 0 i "a" small rolling sampleItems).card : Int)).foldl min INT32_MAX :=
  nodedegreequery_counts ⟨by decide, by decide⟩ rfl "a" 0

end CuckooGraph.Tcm
