import CuckooGraph.Gss.Buffer

/-! # The sketch as a sum for each compressed edge

The baskets and the lists together are a table with probe sequences: what spills
out of the baskets is in `buffer`. So an edge query returns the sum, as a `short`,
of the weights of all items whose two nodes have the same compressed nodes.
-/

namespace CuckooGraph.Gss

open Probing

variable {P : Params} {hash : String → UInt32}

/-- The sketch holds what the table holds. -/
structure Models (t : Gss) (st : Store (Node P × Node P) (Nat × Nat) Label (BitVec 16)) : Prop where
  cells : view t.value = st.cells
  fresh : ∀ pos, (t.value pos).Fresh
  indexed : t.Indexed
  chains : ∀ k c, t.chain k = some c → c.Sound P k ∧ ∃ a : Node P, k = a.1.key P
  listed : ∀ a b : Node P, a ≠ b →
    st.spilled (a, b) = (t.chain (a.1.key P)).bind fun c => weightAt c.next (b.1.key P)
  own : ∀ a : Node P, (st.spilled (a, a)).getD 0 = ((t.chain (a.1.key P)).map fun c => c.head.weight).getD 0
  live : ∀ a : Node P, st.spilled (a, a) ≠ none → t.chain (a.1.key P) ≠ none

def nodeOf (P : Params) (x : UInt32) : Node P := ⟨node P x, node_valid x⟩

/-- The compressed edge of an item and what it adds. -/
def item (P : Params) (hash : String → UInt32) (i : String × String × Int) : (Node P × Node P) × BitVec 16 :=
  ((nodeOf P (hash i.1), nodeOf P (hash i.2.1)), BitVec.ofInt 16 i.2.2)

/-- A run of `insert`. -/
def inserts (P : Params) (hash : String → UInt32) (items : List (String × String × Int)) : Gss :=
  items.foldl (fun t i => insert P hash t i.1 i.2.1 i.2.2) (new P)

/-- The table of a run. -/
def table (P : Params) (hash : String → UInt32) (items : List (String × String × Int)) :
    Store (Node P × Node P) (Nat × Nat) Label (BitVec 16) :=
  Store.addAll (probes P) (items.map (item P hash))

/-- The sum of the weights of a compressed edge. -/
def total (P : Params) (hash : String → UInt32) (items : List (String × String × Int)) (a b : Node P) : BitVec 16 :=
  ((items.filter fun i => (item P hash i).1 = (a, b)).map fun i => (item P hash i).2).sum

theorem node_key_inj {a b : Node P} : a.1.key P = b.1.key P ↔ a = b := by
  rw [key_inj a.2 b.2, Subtype.ext_iff]

theorem models_new : Models (new P) (Store.empty : Store (Node P × Node P) (Nat × Nat) Label (BitVec 16)) where
  cells := rfl
  fresh := fun pos j _ => ⟨by simp [new, Basket.places], rfl⟩
  indexed := ⟨List.nodup_nil, List.Perm.refl _, rfl⟩
  chains := by intro k c here; cases here
  listed := fun a b _ => rfl
  own := fun a => rfl
  live := fun a here => absurd rfl here

/-- The table of names has no part in what is stored. -/
theorem Models.register {t : Gss} {st : Store (Node P × Node P) (Nat × Nat) Label (BitVec 16)} (models : Models t st)
    (k1 k2 : Nat) (s1 s2 : String) : Models (register P t k1 k2 s1 s2) st := by
  unfold Gss.register
  split
  · exact ⟨models.cells, models.fresh, ⟨models.indexed.keys, models.indexed.tags, models.indexed.n⟩, models.chains,
      models.listed, models.own, models.live⟩
  · exact models

/-- What does not fit goes to a list. -/
theorem Models.insertBuffer {t : Gss} {st : Store (Node P × Node P) (Nat × Nat) Label (BitVec 16)} (models : Models t st)
    (a b : Node P) (weight : Int) :
    Models (t.insertBuffer (a.1.key P) (b.1.key P) weight)
      { st with
        spilled := Function.update st.spilled (a, b) (some ((st.spilled (a, b)).getD 0 + BitVec.ofInt 16 weight)) } := by
  obtain ⟨indexed, chains⟩ := models.indexed.insertBuffer (a.1.key P) (b.1.key P) weight
  have value : (t.insertBuffer (a.1.key P) (b.1.key P) weight).value = t.value := by
    unfold Gss.insertBuffer
    split
    · split <;> rfl
    · rfl
  -- the list before, blank if there is none
  have sound : ((t.chain (a.1.key P)).getD (Chain.blank (a.1.key P))).Sound P (a.1.key P) := by
    cases old : t.chain (a.1.key P) with
    | none => exact Chain.sound_blank _
    | some c => exact (models.chains _ c old).1
  constructor
  case cells => rw [value]; exact models.cells
  case fresh => rw [value]; exact models.fresh
  case indexed => exact indexed
  case chains =>
    intro k c here
    rw [chains] at here
    by_cases same : k = a.1.key P
    · rw [if_pos same, Option.some.injEq] at here
      subst here same
      exact ⟨sound.link b weight, a, rfl⟩
    · rw [if_neg same] at here
      exact models.chains k c here
  case listed =>
    intro x y apart
    rw [chains]
    by_cases same : x = a
    · subst same
      have away : y.1.key P ≠ ((t.chain (x.1.key P)).getD (Chain.blank (x.1.key P))).head.key := by
        rw [sound.head]
        exact fun here => apart (node_key_inj.mp here).symm
      have before : weightAt ((t.chain (x.1.key P)).getD (Chain.blank (x.1.key P))).next (y.1.key P) =
          (t.chain (x.1.key P)).bind fun c => weightAt c.next (y.1.key P) := by
        cases t.chain (x.1.key P) <;> rfl
      rw [if_pos rfl, Option.bind_some, Chain.link_next _ _ _ _ away]
      by_cases here : y = b
      · subst here
        simp only [Function.update_self, models.listed x y apart, before, if_true]
      · have other : (x, y) ≠ (x, b) := fun both => here (congrArg Prod.snd both)
        simp only [Function.update_of_ne other, if_neg (fun keys => here (node_key_inj.mp keys)), before,
          models.listed x y apart]
    · have other : (x, y) ≠ (a, b) := fun both => same (congrArg Prod.fst both)
      simp only [Function.update_of_ne other, if_neg (fun keys => same (node_key_inj.mp keys)), models.listed x y apart]
  case own =>
    intro x
    rw [chains]
    by_cases same : x = a
    · subst same
      have before : ((t.chain (x.1.key P)).getD (Chain.blank (x.1.key P))).head.weight = (st.spilled (x, x)).getD 0 := by
        rw [models.own]
        cases t.chain (x.1.key P) <;> rfl
      rw [if_pos rfl, Option.map_some, Option.getD_some, Chain.link_head, sound.head, before]
      by_cases here : x = b
      · subst here
        simp
      · have other : (x, x) ≠ (x, b) := fun both => here (congrArg Prod.snd both)
        simp only [if_neg (fun keys => here (node_key_inj.mp keys)), Function.update_of_ne other]
    · have other : (x, x) ≠ (a, b) := fun both => same (congrArg Prod.fst both)
      simp only [Function.update_of_ne other, if_neg (fun keys => same (node_key_inj.mp keys)), models.own x]
  case live =>
    intro x here
    rw [chains]
    by_cases same : x = a
    · rw [same, if_pos rfl]
      exact Option.some_ne_none _
    · have other : (x, x) ≠ (a, b) := fun both => same (congrArg Prod.fst both)
      simp only [Function.update_of_ne other] at here
      rw [if_neg (fun keys => same (node_key_inj.mp keys))]
      exact models.live x here

theorem probes_fit (e : Node P × Node P) :
    ∀ q ∈ candidates P e.1.1 e.2.1 P.p (e.1.1.g + e.2.1.g), q.places < 2 ^ 8 := by
  intro q hq
  obtain ⟨i1, h1, i2, h2, rfl⟩ := mem_candidates hq
  exact candidate_places_lt _ _ h1 h2

theorem Models.place {t : Gss} {st : Store (Node P × Node P) (Nat × Nat) Label (BitVec 16)} (models : Models t st)
    (a b : Node P) (weight : Int) :
    Models (t.place P a.1 b.1 weight) (st.add (probes P) (a, b) (BitVec.ofInt 16 weight)) := by
  have nonzero := a.2.2.1
  have cells := models.cells
  unfold Gss.place Store.add
  cases place : settle st.cells (probes P (a, b)) with
  | some q =>
      rw [← cells] at place
      obtain ⟨value, done, fresh, filled⟩ := insertMatrix_some nonzero (probes_fit (a, b)) models.fresh weight place
      simp only [done]
      refine ⟨?_, fresh, ⟨models.indexed.keys, models.indexed.tags, models.indexed.n⟩, models.chains, models.listed,
        models.own, models.live⟩
      rw [filled, cells]
  | none =>
      rw [← cells] at place
      have full := insertMatrix_none nonzero weight place
      simp only [full]
      exact models.insertBuffer a b weight

/-- `insert` adds the weight to the compressed edge. -/
theorem Models.insert {t : Gss} {st : Store (Node P × Node P) (Nat × Nat) Label (BitVec 16)} (models : Models t st)
    (i : String × String × Int) :
    Models (Gss.insert P hash t i.1 i.2.1 i.2.2) (st.add (probes P) (item P hash i).1 (item P hash i).2) :=
  (models.register _ _ i.1 i.2.1).place (item P hash i).1.1 (item P hash i).1.2 i.2.2

/-- A run of `insert` fills the table. -/
theorem models_inserts (items : List (String × String × Int)) : Models (inserts P hash items) (table P hash items) := by
  induction items using List.reverseRecOn with
  | nil => exact models_new
  | append_singleton items i ih =>
      rw [inserts, List.foldl_append, table, List.map_append, Store.addAll, List.foldl_append]
      exact ih.insert i

theorem settled_table (items : List (String × String × Int)) : (table P hash items).Settled (probes P) :=
  Store.Settled.addAll _

/-- What the table has for a compressed edge. -/
theorem table_value (items : List (String × String × Int)) (a b : Node P) :
    (table P hash items).value (probes P) (a, b) =
      if (a, b) ∈ items.map (fun i => (item P hash i).1) then some (total P hash items a b) else none := by
  have value := Store.value_addAll probes_apart (items.map (item P hash)) (a, b)
  refine value.trans ?_
  simp only [List.map_map, List.filter_map, total, Function.comp_def]

theorem table_value_getD (items : List (String × String × Int)) (a b : Node P) :
    ((table P hash items).value (probes P) (a, b)).getD 0 = total P hash items a b := by
  rw [table_value]
  split
  · rfl
  · rename_i absent
    have none : items.filter (fun i => (item P hash i).1 = (a, b)) = [] := by
      rw [List.filter_eq_nil_iff]
      intro i hi
      simpa using fun same => absent (List.mem_map.mpr ⟨i, hi, same⟩)
    rw [total, none]
    rfl

/-- A query finds what the table has. -/
theorem Models.edgeWeight {t : Gss} {st : Store (Node P × Node P) (Nat × Nat) Label (BitVec 16)} (models : Models t st)
    (settled : st.Settled (probes P)) (a b : Node P) :
    edgeWeight P t a.1 b.1 = (st.value (probes P) (a, b)).getD 0 := by
  have nonzero := a.2.2.1
  have found : ∀ v, st.value (probes P) (a, b) = some v ↔
      (∃ q ∈ probes P (a, b), st.cells q.1 = some (q.2, v)) ∨ st.spilled (a, b) = some v :=
    fun v => settled.value_eq_some probes_apart
  unfold Gss.edgeWeight
  cases inside : findMatrix P t.value a.1.g b.1.g (candidates P a.1 b.1 P.p (a.1.g + b.1.g)) with
  | some v =>
      obtain ⟨q, hq, here⟩ := findMatrix_some nonzero inside
      rw [models.cells] at here
      rw [(found v).mpr (.inl ⟨q, hq, here⟩)]
      rfl
  | none =>
      have away := findMatrix_none nonzero inside
      rw [models.cells] at away
      have value : st.value (probes P) (a, b) = st.spilled (a, b) := by
        refine Option.ext fun v => (found v).trans ⟨fun either => ?_, .inr⟩
        rcases either with ⟨q, hq, here⟩ | there
        · exact absurd here (away q hq v)
        · exact there
      rw [value]
      by_cases same : a = b
      · subst same
        rw [models.own]
        cases here : t.chain (a.1.key P) with
        | none => rfl
        | some c =>
            have head := (models.chains _ c here).1.head
            simp [Chain.nodes, head]
      · have keys : a.1.key P ≠ b.1.key P := fun here => same (node_key_inj.mp here)
        rw [models.listed _ _ same]
        cases here : t.chain (a.1.key P) with
        | none => rfl
        | some c =>
            have head := (models.chains _ c here).1.head
            simp [Chain.nodes, head, keys, weightAt]

/-- An edge query returns the sum of the weights of the items with the same compressed edge, as a `short`. -/
theorem edgeQuery_total (items : List (String × String × Int)) (s1 s2 : String) :
    edgeQuery P hash (inserts P hash items) s1 s2 =
      (total P hash items (nodeOf P (hash s1)) (nodeOf P (hash s2))).toInt := by
  have weight : edgeWeight P (inserts P hash items) (nodeOf P (hash s1)).1 (nodeOf P (hash s2)).1 =
      total P hash items (nodeOf P (hash s1)) (nodeOf P (hash s2)) :=
    ((models_inserts items).edgeWeight (settled_table items) _ _).trans (table_value_getD items _ _)
  exact congrArg BitVec.toInt weight

end CuckooGraph.Gss
