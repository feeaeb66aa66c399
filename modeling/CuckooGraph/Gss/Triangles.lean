import CuckooGraph.GSketch
import CuckooGraph.Gss.Names
import Mathlib.Combinatorics.SimpleGraph.Clique

/-! # The triangles of the sketch

`TriangleCounting` makes an undirected graph of the names in `mapTable` and of the
edges in the baskets and in `buffer`, and counts the triangles of names in it.
-/

namespace CuckooGraph.Gss

open Probing

section Model

variable (P : Params)

/-- `hvinsert`. -/
def hvinsert (hash : Nat) : List Hashvalue → List Hashvalue
  | [] => [⟨hash, 1⟩]
  | hv :: v => if hash = hv.key then { hv with IDnum := hv.IDnum + 1 } :: v else hv :: hvinsert hash v

/-- The nodes of a chain of `mapTable`. -/
def chainNodes (chain : List (HashTableNode String)) : List Hashvalue := chain.foldl (fun v np => hvinsert np.key v) []

/-- The nodes which are inserted, in the order of `mapTable`. -/
def tableNodes (t : Gss) : List Hashvalue :=
  (List.range P.tablesize).flatMap fun i => chainNodes (t.mapTable.table i)

/-- The edges in the baskets, then those in `buffer`. -/
def matrixEdges (value : Nat → Basket) : List (Nat × Nat) :=
  (List.range P.w).flatMap fun i => (List.range P.w).flatMap fun k =>
    let b := value (i * P.w + k)
    ((List.range P.s).filter fun j => b.src j > 0).map fun j =>
      ((original P (b.src j) (b.srcPlace j) i).key P, (original P (b.dst j) (b.dstPlace j) k).key P)

def bufferEdges (t : Gss) : List (Nat × Nat) := t.buffer.flatMap fun c => c.next.map fun np => (c.head.key, np.key)

/-- The undirected graph `gs`. -/
def sketch (t : Gss) : GSketch :=
  let gs := (tableNodes P t).foldl (fun gs hv => gs.insert_node hv.key hv.IDnum) GSketch.new
  (matrixEdges P t.value ++ bufferEdges t).foldl (fun gs e => gs.insert_edge e.1 e.2) gs

def TriangleCounting (std : DegreeSort) (t : Gss) : Option Nat := ((sketch P t).clean std).countTriangle

end Model

section Nodes

variable {k : Nat} {v : List Hashvalue}

theorem hvinsert_keys (hash : Nat) (v : List Hashvalue) : (hvinsert hash v).map Hashvalue.key =
    if hash ∈ v.map Hashvalue.key then v.map Hashvalue.key else v.map Hashvalue.key ++ [hash] := by
  induction v with
  | nil => rfl
  | cons hv v ih =>
      unfold hvinsert
      by_cases here : hash = hv.key
      · simp [here]
      · rw [if_neg here, List.map_cons, ih]
        simp only [List.map_cons, List.mem_cons, here, false_or]
        split <;> rfl

theorem mem_hvinsert {hash : Nat} (nodup : (v.map Hashvalue.key).Nodup) {hv : Hashvalue} (member : hv ∈ hvinsert hash v) :
    hv.key ≠ hash ∧ hv ∈ v ∨
      hv.key = hash ∧ (hash ∉ v.map Hashvalue.key ∧ hv.IDnum = 1 ∨ ∃ old ∈ v, old.key = hash ∧ hv.IDnum = old.IDnum + 1) := by
  induction v with
  | nil =>
      rw [List.mem_singleton.mp member]
      exact .inr ⟨rfl, .inl ⟨List.not_mem_nil, rfl⟩⟩
  | cons x v ih =>
      obtain ⟨new, rest⟩ := List.nodup_cons.mp (by simpa only [List.map_cons] using nodup)
      unfold hvinsert at member
      split at member
      · rename_i here
        rcases List.mem_cons.mp member with rfl | member
        · exact .inr ⟨here.symm, .inr ⟨x, List.mem_cons_self, here.symm, rfl⟩⟩
        · refine .inl ⟨fun same => new ?_, List.mem_cons_of_mem x member⟩
          rw [← here, ← same]
          exact List.mem_map_of_mem member
      · rename_i other
        rcases List.mem_cons.mp member with rfl | member
        · exact .inl ⟨Ne.symm other, List.mem_cons_self⟩
        · rcases ih rest member with ⟨away, old⟩ | ⟨same, ⟨unknown, one⟩ | ⟨old, there, key, more⟩⟩
          · exact .inl ⟨away, List.mem_cons_of_mem x old⟩
          · refine .inr ⟨same, .inl ⟨fun here => ?_, one⟩⟩
            exact (List.mem_cons.mp here).elim other unknown
          · exact .inr ⟨same, .inr ⟨old, List.mem_cons_of_mem x there, key, more⟩⟩

/-- A chain has a node for each key, with the number of its names. -/
theorem chainNodes_spec (chain : List (HashTableNode String)) :
    ((chainNodes chain).map Hashvalue.key).Nodup ∧
      (∀ k, k ∈ (chainNodes chain).map Hashvalue.key ↔ k ∈ chain.map HashTableNode.key) ∧
      ∀ hv ∈ chainNodes chain, hv.IDnum = chain.countP fun np => np.key = hv.key := by
  induction chain using List.reverseRecOn with
  | nil => simp [chainNodes]
  | append_singleton chain np ih =>
      obtain ⟨nodup, keys, counts⟩ := ih
      have step : chainNodes (chain ++ [np]) = hvinsert np.key (chainNodes chain) := List.foldl_append
      rw [step, hvinsert_keys]
      refine ⟨?_, fun k => ?_, fun hv member => ?_⟩
      · split
        · exact nodup
        · rename_i new
          refine List.nodup_append'.mpr ⟨nodup, List.nodup_singleton _, fun x hx hy => new ?_⟩
          rwa [← List.mem_singleton.mp hy]
      · rw [List.map_append, List.mem_append, ← keys]
        split
        · rename_i old
          refine ⟨.inl, fun either => either.elim id fun here => ?_⟩
          have same : k = np.key := List.mem_singleton.mp here
          exact same ▸ old
        · exact List.mem_append
      · rw [List.countP_append, List.countP_singleton]
        rcases mem_hvinsert nodup member with ⟨away, old⟩ | ⟨same, ⟨unknown, one⟩ | ⟨old, there, key, more⟩⟩
        · simp [counts hv old, Ne.symm away]
        · have none : (chain.countP fun np => np.key = hv.key) = 0 := by
            rw [List.countP_eq_zero]
            intro x hx
            simpa using fun here => unknown ((keys _).mpr (List.mem_map.mpr ⟨x, hx, here.trans same⟩))
          rw [one, none]
          simp [same]
        · have count := counts old there
          rw [key] at count
          simp [more, count, same]

end Nodes

section Sketch

variable {P : Params} {hash : String → UInt32} (items : List (String × String × Int))

/-- The nodes of the undirected graph, with their numbers of names. -/
def numbered (P : Params) (t : Gss) : List (Nat × Nat) := (tableNodes P t).map fun hv => (hv.key, hv.IDnum)

theorem chained_inserts (useT : P.useT = true) : (inserts P hash items).mapTable.Chained := by
  rw [mapTable_inserts items useT]
  exact (HashTable.chained_init _).insertAll _

theorem tableSize_inserts (useT : P.useT = true) : (inserts P hash items).mapTable.tableSize = P.tablesize := by
  rw [mapTable_inserts items useT]
  induction entries items P hash using List.reverseRecOn with
  | nil => rfl
  | append_singleton es e ih =>
      rw [HashTable.insertAll, List.foldl_append, List.foldl_cons, List.foldl_nil, HashTable.insert_tableSize]
      exact ih

/-- Each key that has names is a node, with their number. -/
theorem numbered_spec (useT : P.useT = true) :
    ((numbered P (inserts P hash items)).map Prod.fst).Nodup ∧
      (∀ k, k ∈ (numbered P (inserts P hash items)).map Prod.fst ↔ (inserts P hash items).mapTable.getID k ≠ []) ∧
      ∀ e ∈ numbered P (inserts P hash items), e.2 = ((inserts P hash items).mapTable.getID e.1).length := by
  have chained := @chained_inserts P hash items useT
  have size := @tableSize_inserts P hash items useT
  generalize inserts P hash items = t at chained size ⊢
  have keys : (numbered P t).map Prod.fst =
      (List.range P.tablesize).flatMap fun i => (chainNodes (t.mapTable.table i)).map Hashvalue.key := by
    rw [numbered, tableNodes, List.map_map, List.map_flatMap]
    rfl
  have place : ∀ i k, k ∈ (chainNodes (t.mapTable.table i)).map Hashvalue.key → k % t.mapTable.tableSize = i := by
    intro i k hk
    obtain ⟨np, hnp, rfl⟩ := List.mem_map.mp (((chainNodes_spec _).2.1 k).mp hk)
    exact chained.place i np hnp
  refine ⟨?_, fun k => ?_, fun e he => ?_⟩
  · rw [keys]
    refine List.nodup_flatMap.mpr ⟨fun i _ => (chainNodes_spec _).1, ?_⟩
    exact List.nodup_range.imp fun {i j} other k hk hk' => other ((place i k hk).symm.trans (place j k hk'))
  · rw [keys, List.mem_flatMap]
    have named : t.mapTable.getID k ≠ [] ↔ ∃ np ∈ t.mapTable.table (k % t.mapTable.tableSize), np.key = k := by
      rw [HashTable.getID, Ne, List.map_eq_nil_iff, List.filter_eq_nil_iff]
      simp
    rw [named]
    constructor
    · rintro ⟨i, -, hk⟩
      have here := place i k hk
      rw [(chainNodes_spec _).2.1] at hk
      rw [here]
      exact List.mem_map.mp hk
    · rintro ⟨np, hnp, same⟩
      refine ⟨k % t.mapTable.tableSize, ?_, ((chainNodes_spec _).2.1 k).mpr (List.mem_map.mpr ⟨np, hnp, same⟩)⟩
      rw [List.mem_range, size]
      exact Nat.mod_lt _ (P.table_pos useT)
  · obtain ⟨hv, member, rfl⟩ := List.mem_map.mp he
    obtain ⟨i, -, here⟩ := List.mem_flatMap.mp member
    have same := place i hv.key (List.mem_map_of_mem here)
    rw [← HashTable.countIDnums_eq, HashTable.countIDnums, same]
    exact (chainNodes_spec _).2.2 hv here

section Stored

variable {t : Gss} {st : Store (Node P × Node P) (Nat × Nat) Label (BitVec 16)} (models : Models t st)

include models

theorem Models.matrixEdges (settled : st.Settled (probes P)) :
    (∀ e ∈ matrixEdges P t.value, ∃ a b : Node P, e = (a.1.key P, b.1.key P) ∧ st.inside (probes P) (a, b) ≠ none) ∧
      ∀ a b : Node P, st.inside (probes P) (a, b) ≠ none → (a.1.key P, b.1.key P) ∈ Gss.matrixEdges P t.value := by
  have bound := P.r_le
  constructor
  · intro e he
    obtain ⟨i, hi, he⟩ := List.mem_flatMap.mp he
    obtain ⟨k, hk, he⟩ := List.mem_flatMap.mp he
    obtain ⟨j, hj, rfl⟩ := List.mem_map.mp he
    obtain ⟨-, full⟩ := List.mem_filter.mp hj
    have full : (t.value (i * P.w + k)).src j ≠ 0 := (of_decide_eq_true full).ne'
    obtain ⟨x, y, i1, h1, i2, h2, -, pos, src, dst, srcPlace, dstPlace, -, here⟩ := models.occupied settled full
    obtain ⟨row, column⟩ := pos_inj (List.mem_range.mp hk) (Nat.mod_lt _ P.w_pos) pos
    refine ⟨x, y, ?_, here ▸ Option.some_ne_none _⟩
    rw [src, dst, srcPlace, dstPlace, row, column, original_eq x.2, original_eq y.2]
  · intro a b here
    obtain ⟨v, here⟩ := Option.ne_none_iff_exists'.mp here
    obtain ⟨q, hq, cell⟩ := (settled.inside_eq_some probes_apart).mp here
    obtain ⟨i1, h1, i2, h2, j, hj, rfl⟩ := mem_probes hq
    rw [← models.cells, view, Basket.cell_eq_some a.2.2.1] at cell
    obtain ⟨holds, -⟩ := cell
    simp only [Basket.holds, decide_eq_true_eq] at holds
    obtain ⟨places, src, dst⟩ := holds
    rw [candidate_places _ _ (by omega)] at places
    refine List.mem_flatMap.mpr ⟨(a.1.h + tmp a.1.g i1) % P.w, List.mem_range.mpr (Nat.mod_lt _ P.w_pos),
      List.mem_flatMap.mpr ⟨(b.1.h + tmp b.1.g i2) % P.w, List.mem_range.mpr (Nat.mod_lt _ P.w_pos),
      List.mem_map.mpr ⟨j, List.mem_filter.mpr ⟨List.mem_range.mpr hj, ?_⟩, ?_⟩⟩⟩
    · have positive := Nat.pos_of_ne_zero a.2.2.1
      rw [← src] at positive
      exact decide_eq_true positive
    · have srcPlace := (srcPlace_eq (t.value (candidate P a.1 b.1 i1 i2).pos) j).trans
        ((congrArg (· % 16) places).trans (show (i2 * 16 + i1) % 16 = i1 by omega))
      have dstPlace := (dstPlace_eq (t.value (candidate P a.1 b.1 i1 i2).pos) j).trans
        ((congrArg (· / 16) places).trans (show (i2 * 16 + i1) / 16 = i2 by omega))
      simp only [candidate] at src dst srcPlace dstPlace
      rw [src, dst, srcPlace, dstPlace, original_eq a.2, original_eq b.2]

theorem Models.bufferEdges :
    (∀ e ∈ bufferEdges t, ∃ a b : Node P, e = (a.1.key P, b.1.key P) ∧ a ≠ b ∧ st.spilled (a, b) ≠ none) ∧
      ∀ a b : Node P, a ≠ b → st.spilled (a, b) ≠ none → (a.1.key P, b.1.key P) ∈ Gss.bufferEdges t := by
  constructor
  · intro e he
    obtain ⟨c, hc, he⟩ := List.mem_flatMap.mp he
    obtain ⟨np, hnp, rfl⟩ := List.mem_map.mp he
    -- each place of `buffer` has its entry
    obtain ⟨i, here⟩ := List.mem_iff_getElem?.mp hc
    have tag := models.indexed.tags.mem_iff.mpr (List.mem_range.mpr (List.getElem?_eq_some_iff.mp here).1)
    obtain ⟨e, he, rfl⟩ := List.mem_map.mp tag
    obtain ⟨c', -, there, sound, a, ha⟩ := models.entry he
    rw [models.indexed.chain_eq he, here, Option.some.injEq] at there
    subst there
    obtain ⟨away, b, hb⟩ := sound.other np hnp
    have apart : a ≠ b := by
      rintro rfl
      exact away (hb.trans ha.symm)
    refine ⟨a, b, by rw [sound.head, ha, hb], apart, ?_⟩
    rw [ha] at sound
    rw [models.listed a b apart, ← ha, models.indexed.chain_eq he, here, Option.bind_some,
      (weightAt_iff sound.nodup).mpr (show (⟨b.1.key P, np.weight⟩ : Linknode) ∈ c.next by rw [← hb]; exact hnp)]
    exact Option.some_ne_none _
  · intro a b apart here
    rw [models.listed a b apart] at here
    cases found : t.chain (a.1.key P) with
    | none => simp [found] at here
    | some c =>
        obtain ⟨sound, -⟩ := models.chains _ c found
        rw [found, Option.bind_some] at here
        obtain ⟨v, hv⟩ := Option.ne_none_iff_exists'.mp here
        have member : c ∈ t.buffer := by
          rw [chain] at found
          obtain ⟨tag, -, there⟩ := Option.bind_eq_some_iff.mp found
          exact List.mem_of_getElem? there
        refine List.mem_flatMap.mpr ⟨c, member, List.mem_map.mpr ⟨_, (weightAt_iff sound.nodup).mp hv, ?_⟩⟩
        rw [sound.head]

end Stored

/-- The edges which are inserted are the compressed edges, but for some self-loops. -/
theorem edges_spec :
    (∀ e ∈ matrixEdges P (inserts P hash items).value ++ bufferEdges (inserts P hash items),
      ∃ a b : Node P, e = (a.1.key P, b.1.key P) ∧ (a, b) ∈ edges P hash items) ∧
    ∀ a b : Node P, a ≠ b → (a, b) ∈ edges P hash items →
      (a.1.key P, b.1.key P) ∈ matrixEdges P (inserts P hash items).value ++ bufferEdges (inserts P hash items) := by
  have models : Models _ (table P hash items) := models_inserts items
  have settled := @settled_table P hash items
  constructor
  · intro e he
    rcases List.mem_append.mp he with he | he
    · obtain ⟨a, b, rfl, here⟩ := (models.matrixEdges settled).1 e he
      refine ⟨a, b, rfl, (value_ne_none items (a, b)).mp ?_⟩
      rcases settled.value_cases (a, b) with ⟨-, value⟩ | ⟨none, -⟩
      · rwa [value]
      · exact absurd none here
    · obtain ⟨a, b, rfl, -, here⟩ := models.bufferEdges.1 e he
      refine ⟨a, b, rfl, (value_ne_none items (a, b)).mp ?_⟩
      rcases settled.value_cases (a, b) with ⟨none, -⟩ | ⟨-, value⟩
      · exact absurd none here
      · rwa [value]
  · intro a b apart here
    have here := (value_ne_none items (a, b)).mpr here
    rcases settled.value_cases (a, b) with ⟨-, value⟩ | ⟨-, value⟩
    · exact List.mem_append_left _ ((models.matrixEdges settled).2 a b (value ▸ here))
    · exact List.mem_append_right _ (models.bufferEdges.2 a b apart (value ▸ here))

/-- Two nodes are joined if an edge leads from one to the other. -/
def graph (P : Params) (hash : String → UInt32) (items : List (String × String × Int)) : SimpleGraph (Node P) where
  Adj a b := a ≠ b ∧ ((a, b) ∈ edges P hash items ∨ (b, a) ∈ edges P hash items)
  symm := ⟨fun _ _ both => ⟨both.1.symm, both.2.symm⟩⟩
  loopless := ⟨fun _ both => both.1 rfl⟩

/-- The number of names of a node. -/
def namesOf (P : Params) (hash : String → UInt32) (items : List (String × String × Int)) (a : Node P) : Nat :=
  ((names items).toFinset.filter fun x => nodeOf P (hash x) = a).card

instance : DecidableRel (graph P hash items).Adj := fun a b =>
  inferInstanceAs (Decidable (a ≠ b ∧ ((a, b) ∈ edges P hash items ∨ (b, a) ∈ edges P hash items)))

/-- The ends of the edges, both ways round. -/
def halves (es : List (Nat × Nat)) : List (Nat × Nat) := es.flatMap fun e => [(e.1, e.2), (e.2, e.1)]

theorem mem_halves {es : List (Nat × Nat)} {x y : Nat} : (x, y) ∈ halves es ↔ (x, y) ∈ es ∨ (y, x) ∈ es := by
  simp only [halves, List.mem_flatMap, List.mem_cons, List.not_mem_nil, or_false, Prod.mk.injEq]
  constructor
  · rintro ⟨e, he, ⟨rfl, rfl⟩ | ⟨rfl, rfl⟩⟩
    · exact .inl he
    · exact .inr he
  · rintro (he | he)
    · exact ⟨_, he, .inl ⟨rfl, rfl⟩⟩
    · exact ⟨_, he, .inr ⟨rfl, rfl⟩⟩

/-- The end of an edge has a name. -/
theorem named_of_edge {a b : Node P} (edge : (a, b) ∈ edges P hash items) :
    (∃ x ∈ names items, nodeOf P (hash x) = a) ∧ ∃ x ∈ names items, nodeOf P (hash x) = b := by
  obtain ⟨i, hi, same⟩ := List.mem_map.mp edge
  obtain ⟨rfl, rfl⟩ := Prod.mk.inj same
  exact ⟨⟨i.1, List.mem_flatMap.mpr ⟨i, hi, by simp⟩, rfl⟩, ⟨i.2.1, List.mem_flatMap.mpr ⟨i, hi, by simp⟩, rfl⟩⟩

/-- The nodes of the undirected graph are those with names. -/
theorem mem_numbered (useT : P.useT = true) (b : Node P) :
    b.1.key P ∈ (numbered P (inserts P hash items)).map Prod.fst ↔ ∃ x ∈ names items, nodeOf P (hash x) = b := by
  rw [(numbered_spec items useT).2.1]
  constructor
  · intro some
    obtain ⟨x, hx⟩ := List.exists_mem_of_ne_nil _ some
    exact ⟨x, (mem_getID_inserts items useT b x).mp hx⟩
  · rintro ⟨x, hx⟩
    exact List.ne_nil_of_mem ((mem_getID_inserts items useT b x).mpr hx)

theorem holds_sketch (useT : P.useT = true) :
    (sketch P (inserts P hash items)).Holds (numbered P (inserts P hash items))
      (halves (matrixEdges P (inserts P hash items).value ++ bufferEdges (inserts P hash items))) := by
  have nodes := GSketch.holds_nodes (@numbered_spec P hash items useT).1
  rw [numbered, List.foldl_map] at nodes
  refine nodes.insert_edges _ fun e he => ?_
  obtain ⟨a, b, rfl, edge⟩ := (edges_spec items).1 e he
  obtain ⟨ha, hb⟩ := named_of_edge items edge
  exact ⟨(mem_numbered items useT a).mpr ha, (mem_numbered items useT b).mpr hb⟩

/-- The number of names at a node of the undirected graph. -/
theorem idnums_sketch (useT : P.useT = true) {b : Node P}
    (known : b.1.key P ∈ (numbered P (inserts P hash items)).map Prod.fst) :
    (sketch P (inserts P hash items)).idnums (b.1.key P) = namesOf P hash items b := by
  obtain ⟨e, he, key⟩ := List.mem_map.mp known
  rw [← key, (holds_sketch items useT).idnums e he, (numbered_spec items useT).2.2 e he, key,
    ← List.toFinset_card_of_nodup (nodup_getID_inserts items useT _), namesOf]
  congr 1
  ext x
  rw [List.mem_toFinset, Finset.mem_filter, List.mem_toFinset]
  exact mem_getID_inserts items useT b x

/-- The edges of the undirected graph. -/
theorem joined_iff (a b : Node P) :
    GSketch.Joined (halves (matrixEdges P (inserts P hash items).value ++ bufferEdges (inserts P hash items)))
      (a.1.key P) (b.1.key P) ↔ (graph P hash items).Adj a b := by
  obtain ⟨named, stored⟩ := @edges_spec P hash items
  have edge : ∀ a b : Node P, (a.1.key P, b.1.key P) ∈ matrixEdges P (inserts P hash items).value ++
      bufferEdges (inserts P hash items) → (a, b) ∈ edges P hash items := by
    intro a b he
    obtain ⟨a', b', same, edge⟩ := named _ he
    obtain ⟨ha, hb⟩ := Prod.mk.inj same
    rwa [node_key_inj.mp ha, node_key_inj.mp hb]
  rw [GSketch.Joined, mem_halves, Ne, node_key_inj]
  refine and_congr_right fun apart => or_congr ⟨edge a b, stored a b apart⟩ ⟨edge b a, stored b a (Ne.symm apart)⟩

/-- The nodes of a triangle have names. -/
theorem named_of_clique {s : Finset (Node P)} (clique : (graph P hash items).IsNClique 3 s) {a : Node P} (ha : a ∈ s) :
    ∃ x ∈ names items, nodeOf P (hash x) = a := by
  obtain ⟨joined, three⟩ := (graph P hash items).isNClique_iff.mp clique
  obtain ⟨b, hb, other⟩ := Finset.exists_mem_ne (show 1 < s.card by omega) a
  rcases (joined ha hb other.symm).2 with edge | edge
  · exact (named_of_edge items edge).1
  · exact (named_of_edge items edge).2

/-- The key of a node is one to one. -/
def keyOf (P : Params) : Node P ↪ Nat := ⟨fun a => a.1.key P, fun _ _ => node_key_inj.mp⟩

/-- The keys of the undirected graph are those of nodes. -/
theorem numbered_key (useT : P.useT = true) {k : Nat} (known : k ∈ (numbered P (inserts P hash items)).map Prod.fst) :
    ∃ a : Node P, a.1.key P = k := by
  rw [(numbered_spec items useT).2.1, mapTable_inserts items useT] at known
  obtain ⟨x, hx⟩ := List.exists_mem_of_ne_nil _ known
  rw [HashTable.mem_getID_insertAll] at hx
  rcases hx with old | new
  · rw [HashTable.mem_getID] at old
    cases old
  · obtain ⟨i, -, here⟩ := List.mem_flatMap.mp new
    simp only [List.mem_cons, List.not_mem_nil, or_false, Prod.mk.injEq] at here
    rcases here with ⟨rfl, -⟩ | ⟨rfl, -⟩
    · exact ⟨nodeOf P (hash i.1), rfl⟩
    · exact ⟨nodeOf P (hash i.2.1), rfl⟩

/-- The triangles of the undirected graph are those of the compressed nodes. -/
theorem sum_cliques (useT : P.useT = true) :
    ∑ t ∈ Cliques.triangles (GSketch.nodeSet (numbered P (inserts P hash items))) (GSketch.Joined
        (halves (matrixEdges P (inserts P hash items).value ++ bufferEdges (inserts P hash items)))),
      ∏ k ∈ t, (sketch P (inserts P hash items)).idnums k =
      ∑ s ∈ (graph P hash items).cliqueFinset 3, ∏ a ∈ s, namesOf P hash items a := by
  refine (Finset.sum_bij (fun s _ => s.map (keyOf P)) ?_ ?_ ?_ ?_).symm
  · intro s hs
    have clique := (graph P hash items).mem_cliqueFinset_iff.mp hs
    obtain ⟨joined, three⟩ := (graph P hash items).isNClique_iff.mp clique
    refine Cliques.mem_triangles.mpr ⟨fun k hk => ?_, by rw [Finset.card_map, three], ?_⟩
    · obtain ⟨a, ha, rfl⟩ := Finset.mem_map.mp hk
      exact List.mem_toFinset.mpr ((mem_numbered items useT a).mpr (named_of_clique items clique ha))
    · intro x hx y hy other
      obtain ⟨a, ha, rfl⟩ := Finset.mem_map.mp hx
      obtain ⟨b, hb, rfl⟩ := Finset.mem_map.mp hy
      exact (joined_iff items a b).mpr (joined ha hb fun same => other (congrArg _ same))
  · intro s _ s' _ same
    exact Finset.map_injective _ same
  · intro t ht
    obtain ⟨inside, three, joined⟩ := Cliques.mem_triangles.mp ht
    have nodes : ∀ k ∈ t, ∃ a : Node P, a.1.key P = k := fun k hk =>
      numbered_key items useT (List.mem_toFinset.mp (inside hk))
    have cover : (t.image fun k => asNode P (unpack P k)).map (keyOf P) = t := by
      ext k
      simp only [Finset.mem_map, Finset.mem_image]
      constructor
      · rintro ⟨a, ⟨k', hk', rfl⟩, rfl⟩
        obtain ⟨a, rfl⟩ := nodes k' hk'
        rwa [asNode_unpack]
      · intro hk
        obtain ⟨a, rfl⟩ := nodes k hk
        exact ⟨a, ⟨_, hk, asNode_unpack a⟩, rfl⟩
    refine ⟨_, ?_, cover⟩
    rw [SimpleGraph.mem_cliqueFinset_iff, SimpleGraph.isNClique_iff]
    refine ⟨fun a ha b hb other => ?_, by rw [← Finset.card_map (keyOf P), cover, three]⟩
    have member : ∀ a ∈ t.image (fun k => asNode P (unpack P k)), a.1.key P ∈ t := fun a ha => by
      rw [← cover]
      exact Finset.mem_map_of_mem (keyOf P) ha
    exact (joined_iff items a b).mp (joined _ (member a ha) _ (member b hb) fun same => other (node_key_inj.mp same))
  · intro s hs
    rw [Finset.prod_map]
    refine Finset.prod_congr rfl fun a ha => (idnums_sketch items useT ?_).symm
    exact (mem_numbered items useT a).mpr (named_of_clique items ((graph P hash items).mem_cliqueFinset_iff.mp hs) ha)

def insertionStd : DegreeSort where
  sort := fun l => l.insertionSort fun a b => a.degree ≤ b.degree
  perm := fun l => List.perm_insertionSort _ l
  sorted := fun l => List.pairwise_insertionSort _ l

end Sketch

end CuckooGraph.Gss
