import CuckooGraph.Gss.NodeQueries

/-! # The names of the neighbours

A node query for names goes over the keys of the neighbours and looks them up in
`mapTable`. The keys do not repeat, so no name is returned twice.
-/

namespace CuckooGraph.Gss

open Probing

variable {P : Params} {hash : String → UInt32}

/-- The names of the items. -/
def names (items : List (String × String × Int)) : List String := items.flatMap fun i => [i.1, i.2.1]

/-- The compressed edges of the items. -/
def edges (P : Params) (hash : String → UInt32) (items : List (String × String × Int)) : List (Node P × Node P) :=
  items.map fun i => (item P hash i).1

/-- A self-loop which has spilled into `buffer`, with weights which add up to 0. -/
def Hidden (P : Params) (hash : String → UInt32) (items : List (String × String × Int)) (a : Node P) : Prop :=
  (table P hash items).inside (probes P) (a, a) = none ∧ total P hash items a a = 0

/-- The neighbours which are returned. -/
def Neighbour (P : Params) (hash : String → UInt32) (items : List (String × String × Int)) (type : Side) (a b : Node P) :
    Prop := type.edge a b ∈ edges P hash items ∧ (b = a → ¬ Hidden P hash items a)

/-- `nodeSuccessorQuery` and `nodePrecursorQuery`. -/
def nodeQuery (P : Params) (hash : String → UInt32) (t : Gss) (s1 : String) : Side → List String
  | .out => nodeSuccessorQuery P hash t s1
  | .into => nodePrecursorQuery P hash t s1

/-- The keys of the neighbours in `buffer`. -/
def bufferKeys (t : Gss) (k1 : Nat) : Side → List Nat
  | .out => (t.chain k1).elim [] fun c => c.next.map Linknode.key
  | .into => (t.index.filter fun e => (t.chainAt e).any fun c => c.next.any fun node => node.key = k1).map Prod.fst

/-- The keys which a node query comes to. -/
def neighbourKeys (P : Params) (t : Gss) (a : Mapnode) (type : Side) : List Nat :=
  (rooms P type t.value a).map (fun room => (farNode P type t.value room).key P) ++
    (((t.chain (a.key P)).elim [] fun c => if c.head.weight ≠ 0 then [a.key P] else []) ++ bufferKeys t (a.key P) type)

/-- The loop over `index` in front of a test of each list. -/
theorem Models.lists_flatMap {t : Gss} {st : Store (Node P × Node P) (Nat × Nat) Label (BitVec 16)} (models : Models t st)
    (test : Chain → Bool) (ids : Nat → List String) :
    (t.index.flatMap fun e => (t.chainAt e).flatMap fun c => if test c then ids e.1 else []) =
      ((t.index.filter fun e => (t.chainAt e).any test).map Prod.fst).flatMap ids := by
  have each : ∀ l : List (Nat × Nat), (∀ e ∈ l, e ∈ t.index) →
      (l.flatMap fun e => (t.chainAt e).flatMap fun c => if test c then ids e.1 else []) =
        ((l.filter fun e => (t.chainAt e).any test).map Prod.fst).flatMap ids := by
    intro l inside
    induction l with
    | nil => rfl
    | cons e l ih =>
        obtain ⟨he, inside⟩ := List.forall_mem_cons.mp inside
        obtain ⟨c, only, -⟩ := models.entry he
        rw [List.flatMap_cons, ih inside, List.filter_cons, only]
        cases h : test c <;> simp [h]
  exact each _ fun _ he => he

theorem nodeQuery_eq {t : Gss} {st : Store (Node P × Node P) (Nat × Nat) Label (BitVec 16)} (models : Models t st)
    (s1 : String) (type : Side) :
    nodeQuery P hash t s1 type = (neighbourKeys P t (node P (hash s1)) type).flatMap t.mapTable.getID := by
  unfold neighbourKeys
  rw [List.flatMap_append, List.flatMap_append, List.flatMap_map]
  cases type with
  | out =>
      unfold nodeQuery nodeSuccessorQuery
      refine congrArg (_ ++ ·) ?_
      cases h : t.chain ((node P (hash s1)).key P) with
      | none => simp [h, bufferKeys]
      | some c =>
          simp only [h, bufferKeys, Option.elim_some, List.flatMap_map]
          split <;> simp
  | into =>
      unfold nodeQuery nodePrecursorQuery
      refine congrArg (_ ++ ·) ?_
      rw [models.lists_flatMap]
      refine congrArg (· ++ _) ?_
      cases h : t.chain ((node P (hash s1)).key P) with
      | none => rfl
      | some c =>
          simp only [Option.elim_some]
          split <;> simp

/-- The keys are those of the nodes with a property, each once. -/
structure Lists (P : Params) (keys : List Nat) (p : Node P → Prop) : Prop where
  nodup : keys.Nodup
  named : ∀ k ∈ keys, ∃ b : Node P, k = b.1.key P
  mem : ∀ b : Node P, b.1.key P ∈ keys ↔ p b

theorem Lists.append {keys keys' : List Nat} {p q : Node P → Prop} (first : Lists P keys p) (second : Lists P keys' q)
    (apart : ∀ b, p b → ¬ q b) : Lists P (keys ++ keys') fun b => p b ∨ q b where
  nodup := by
    refine List.nodup_append'.mpr ⟨first.nodup, second.nodup, fun k hk hk' => ?_⟩
    obtain ⟨b, rfl⟩ := first.named k hk
    exact apart b ((first.mem b).mp hk) ((second.mem b).mp hk')
  named := fun k hk => (List.mem_append.mp hk).elim (first.named k) (second.named k)
  mem := fun b => by rw [List.mem_append, first.mem, second.mem]

theorem Lists.congr {keys : List Nat} {p q : Node P → Prop} (lists : Lists P keys p) (same : ∀ b, p b ↔ q b) :
    Lists P keys q := ⟨lists.nodup, lists.named, fun b => (lists.mem b).trans (same b)⟩

section Keys

variable {t : Gss} {st : Store (Node P × Node P) (Nat × Nat) Label (BitVec 16)} (models : Models t st)
  (settled : st.Settled (probes P)) (a : Node P) (type : Side)

include models

include settled in
theorem Models.roomKeys :
    Lists P ((rooms P type t.value a.1).map fun room => (farNode P type t.value room).key P)
      fun b => st.inside (probes P) (type.edge a b) ≠ none := by
  constructor
  case nodup =>
    have nodup := models.nodup_far settled type a
    rw [← Function.comp_def (Mapnode.key P), ← List.map_map]
    refine nodup.map_on fun m hm m' hm' same => ?_
    obtain ⟨room, stop, rfl⟩ := List.mem_map.mp hm
    obtain ⟨room', stop', rfl⟩ := List.mem_map.mp hm'
    obtain ⟨b, far, -⟩ := models.room_edge settled stop
    obtain ⟨b', far', -⟩ := models.room_edge settled stop'
    rw [far, far', node_key_inj] at same
    rw [far, far', same]
  case named =>
    intro k hk
    obtain ⟨room, stop, rfl⟩ := List.mem_map.mp hk
    obtain ⟨b, far, -⟩ := models.room_edge settled stop
    exact ⟨b, by rw [far]⟩
  case mem =>
    intro b
    constructor
    · intro hk
      obtain ⟨room, stop, key⟩ := List.mem_map.mp hk
      obtain ⟨b', far, -, here⟩ := models.room_edge settled stop
      rw [far, node_key_inj] at key
      rw [← key, here]
      exact Option.some_ne_none _
    · intro here
      obtain ⟨v, here⟩ := Option.ne_none_iff_exists'.mp here
      obtain ⟨room, stop, far⟩ := models.edge_room settled here
      exact List.mem_map.mpr ⟨room, stop, by rw [far]⟩

theorem Models.bufferKeys :
    Lists P (bufferKeys t (a.1.key P) type) fun b => b ≠ a ∧ st.spilled (type.edge a b) ≠ none := by
  cases type with
  | out =>
      unfold Gss.bufferKeys
      cases here : t.chain (a.1.key P) with
      | none =>
          refine ⟨List.nodup_nil, fun k hk => (by cases hk), fun b => ⟨fun hb => (by cases hb), fun both =>
            absurd ?_ both.2⟩⟩
          rw [Side.edge, models.listed a b (Ne.symm both.1), here]
          rfl
      | some c =>
          obtain ⟨sound, -⟩ := models.chains _ c here
          refine ⟨sound.nodup, fun k hk => ?_, fun b => ?_⟩
          · obtain ⟨x, hx, rfl⟩ := List.mem_map.mp hk
            exact (sound.other x hx).2
          have found : b ≠ a → st.spilled (a, b) = weightAt c.next (b.1.key P) := by
            intro apart
            rw [models.listed a b apart.symm, here, Option.bind_some]
          have member : b.1.key P ∈ c.next.map Linknode.key ↔ weightAt c.next (b.1.key P) ≠ none := by
            rw [Option.ne_none_iff_exists']
            simp only [weightAt_iff sound.nodup, List.mem_map]
            constructor
            · rintro ⟨x, hx, key⟩
              exact ⟨x.weight, by rw [← key]; exact hx⟩
            · rintro ⟨v, hv⟩
              exact ⟨_, hv, rfl⟩
          rw [Option.elim_some, member, Side.edge]
          constructor
          · intro listed
            have apart : b ≠ a := by
              rintro rfl
              obtain ⟨x, hx, key⟩ := List.mem_map.mp (member.mpr listed)
              exact (sound.other x hx).1 key
            exact ⟨apart, by rwa [found apart]⟩
          · rintro ⟨apart, listed⟩
            rwa [found apart] at listed
  | into =>
      unfold Gss.bufferKeys
      refine ⟨models.indexed.keys.sublist ((List.filter_sublist).map _), fun k hk => ?_, fun b => ?_⟩
      · obtain ⟨e, he, rfl⟩ := List.mem_map.mp hk
        obtain ⟨-, -, -, -, named⟩ := models.entry (List.mem_filter.mp he).1
        exact named
      -- the list of `b` says whether there is an edge
      have member : ∀ c : Chain, (c.next.map Linknode.key).Nodup →
          ((c.next.any fun x => x.key = a.1.key P) = true ↔ weightAt c.next (a.1.key P) ≠ none) := by
        intro c nodup
        rw [Option.ne_none_iff_exists']
        simp only [weightAt_iff nodup, List.any_eq_true, decide_eq_true_eq]
        constructor
        · rintro ⟨x, hx, key⟩
          exact ⟨x.weight, by rw [← key]; exact hx⟩
        · rintro ⟨v, hv⟩
          exact ⟨_, hv, rfl⟩
      constructor
      · intro hb
        obtain ⟨e, he, key⟩ := List.mem_map.mp hb
        obtain ⟨he, test⟩ := List.mem_filter.mp he
        obtain ⟨c, only, here, sound, -⟩ := models.entry he
        rw [only, List.any_cons, List.any_nil, Bool.or_false, member c sound.nodup] at test
        rw [key] at here sound
        have apart : b ≠ a := by
          rintro rfl
          obtain ⟨v, hv⟩ := Option.ne_none_iff_exists'.mp test
          exact (sound.other _ ((weightAt_iff sound.nodup).mp hv)).1 rfl
        refine ⟨apart, ?_⟩
        rw [Side.edge, models.listed b a apart, here, Option.bind_some]
        exact test
      · rintro ⟨apart, found⟩
        rw [Side.edge, models.listed b a apart] at found
        cases here : t.chain (b.1.key P) with
        | none => simp [here] at found
        | some c =>
            rw [here, Option.bind_some] at found
            have listed : b.1.key P ∈ t.index.map Prod.fst := by
              by_contra absent
              rw [models.indexed.chain_none.mpr absent] at here
              cases here
            obtain ⟨e, he, key⟩ := List.mem_map.mp listed
            obtain ⟨c', only, here', sound, -⟩ := models.entry he
            rw [key, here, Option.some.injEq] at here'
            subst here'
            refine List.mem_map.mpr ⟨e, List.mem_filter.mpr ⟨he, ?_⟩, key⟩
            rw [only, List.any_cons, List.any_nil, Bool.or_false, member c sound.nodup]
            exact found

/-- The key of the node itself is returned if the first element of its list weighs something. -/
theorem Models.ownKey :
    Lists P ((t.chain (a.1.key P)).elim [] fun c => if c.head.weight ≠ 0 then [a.1.key P] else [])
      fun b => b = a ∧ (st.spilled (a, a)).getD 0 ≠ 0 := by
  have same : ((t.chain (a.1.key P)).elim [] fun c => if c.head.weight ≠ 0 then [a.1.key P] else []) =
      if (st.spilled (a, a)).getD 0 ≠ 0 then [a.1.key P] else [] := by
    rw [models.own a]
    cases t.chain (a.1.key P) <;> simp
  rw [same]
  by_cases weighs : (st.spilled (a, a)).getD 0 ≠ 0
  · rw [if_pos weighs]
    refine ⟨List.nodup_singleton _, fun k hk => ⟨a, List.mem_singleton.mp hk⟩, fun b => ?_⟩
    rw [List.mem_singleton, node_key_inj]
    exact ⟨fun here => ⟨here, weighs⟩, And.left⟩
  · rw [if_neg weighs]
    exact ⟨List.nodup_nil, fun k hk => (by cases hk), fun b => ⟨fun hb => (by cases hb), fun both => absurd both.2 weighs⟩⟩

include settled in
theorem Models.neighbourKeys :
    Lists P (neighbourKeys P t a.1 type) fun b => st.value (probes P) (type.edge a b) ≠ none ∧
      (b = a → ¬ (st.inside (probes P) (a, a) = none ∧ (st.value (probes P) (a, a)).getD 0 = 0)) := by
  have loop : type.edge a a = (a, a) := by cases type <;> rfl
  have once : ∀ b, st.inside (probes P) (type.edge a b) ≠ none → st.spilled (type.edge a b) = none := by
    intro b here
    rcases settled.value_cases (type.edge a b) with ⟨none, -⟩ | ⟨none, -⟩
    · exact none
    · exact absurd none here
  have buffered := (models.ownKey a).append (models.bufferKeys a type) (by
    rintro b ⟨rfl, -⟩ ⟨away, -⟩
    exact away rfl)
  have all := (models.roomKeys settled a type).append buffered (by
    rintro b here (⟨rfl, weighs⟩ | ⟨-, spilled⟩)
    · have none := once b here
      rw [loop] at none
      simp [none] at weighs
    · exact spilled (once b here))
  refine all.congr fun b => ?_
  by_cases same : b = a
  · subst same
    rw [loop]
    rcases settled.value_cases (b, b) with ⟨none, value⟩ | ⟨none, value⟩
    · simp only [none, value, Option.getD_none]
      tauto
    · cases h : st.spilled (b, b) <;> simp [none, value, h]
  · rcases settled.value_cases (type.edge a b) with ⟨none, value⟩ | ⟨none, value⟩ <;> simp [none, value, same]

end Keys

section Table

variable (items : List (String × String × Int))

/-- The names with the keys of their nodes. -/
def entries (P : Params) (hash : String → UInt32) : List (Nat × String) :=
  items.flatMap fun i => [((node P (hash i.1)).key P, i.1), ((node P (hash i.2.1)).key P, i.2.1)]

theorem mapTable_place (t : Gss) (a b : Mapnode) (weight : Int) : (t.place P a b weight).mapTable = t.mapTable := by
  unfold Gss.place insertBuffer
  split
  · rfl
  · split
    · split <;> rfl
    · rfl

/-- `mapTable` after a run. -/
theorem mapTable_inserts (useT : P.useT = true) :
    (inserts P hash items).mapTable = (HashTable.init P.tablesize).insertAll (entries items P hash) := by
  induction items using List.reverseRecOn with
  | nil => simp [inserts, new, useT, entries, HashTable.insertAll]
  | append_singleton items i ih =>
      rw [inserts, List.foldl_append, List.foldl_cons, List.foldl_nil, Gss.insert, mapTable_place, register, if_pos useT,
        entries, List.flatMap_append, HashTable.insertAll, List.foldl_append]
      simp only [List.flatMap_cons, List.flatMap_nil, List.append_nil, List.foldl_cons, List.foldl_nil]
      rw [← inserts, ih]
      rfl

/-- The names of a node. -/
theorem mem_getID_inserts (useT : P.useT = true) (b : Node P) (x : String) :
    x ∈ (inserts P hash items).mapTable.getID (b.1.key P) ↔ x ∈ names items ∧ nodeOf P (hash x) = b := by
  have fresh : x ∉ (HashTable.init P.tablesize : HashTable String).getID (b.1.key P) := by
    rw [HashTable.mem_getID]
    exact List.not_mem_nil
  rw [mapTable_inserts items useT, HashTable.mem_getID_insertAll, or_iff_right fresh]
  have keyed : ∀ s : String, b.1.key P = (node P (hash s)).key P ↔ nodeOf P (hash s) = b := fun s =>
    (@node_key_inj P b (nodeOf P (hash s))).trans eq_comm
  simp only [entries, names, List.mem_flatMap, List.mem_cons, List.not_mem_nil, or_false, Prod.mk.injEq, keyed]
  constructor
  · rintro ⟨i, hi, ⟨same, rfl⟩ | ⟨same, rfl⟩⟩
    · exact ⟨⟨i, hi, .inl rfl⟩, same⟩
    · exact ⟨⟨i, hi, .inr rfl⟩, same⟩
  · rintro ⟨⟨i, hi, rfl | rfl⟩, same⟩
    · exact ⟨i, hi, .inl ⟨same, rfl⟩⟩
    · exact ⟨i, hi, .inr ⟨same, rfl⟩⟩

theorem nodup_getID_inserts (useT : P.useT = true) (k : Nat) : ((inserts P hash items).mapTable.getID k).Nodup := by
  rw [mapTable_inserts items useT]
  exact ((HashTable.chained_init _).insertAll _).nodup_getID k

theorem value_ne_none (e : Node P × Node P) :
    (table P hash items).value (probes P) e ≠ none ↔ e ∈ edges P hash items := by
  cases e with
  | mk a b =>
      rw [table_value]
      by_cases h : (a, b) ∈ items.map fun i => (item P hash i).1 <;> simp [h, edges]

/-- The keys of a node query. -/
theorem neighbourKeys_inserts (a : Node P) (type : Side) :
    Lists P (neighbourKeys P (inserts P hash items) a.1 type) (Neighbour P hash items type a) := by
  have models : Models _ (table P hash items) := models_inserts items
  refine (models.neighbourKeys (settled_table items) a type).congr fun b => ?_
  rw [value_ne_none, table_value_getD]
  rfl

theorem mem_flatMap_getID (useT : P.useT = true) {keys : List Nat} {p : Node P → Prop} (lists : Lists P keys p)
    (x : String) : x ∈ keys.flatMap (inserts P hash items).mapTable.getID ↔ x ∈ names items ∧ p (nodeOf P (hash x)) := by
  rw [List.mem_flatMap]
  constructor
  · rintro ⟨k, hk, hx⟩
    obtain ⟨b, rfl⟩ := lists.named k hk
    obtain ⟨name, rfl⟩ := (mem_getID_inserts items useT b x).mp hx
    exact ⟨name, (lists.mem _).mp hk⟩
  · rintro ⟨name, here⟩
    exact ⟨_, (lists.mem _).mpr here, (mem_getID_inserts items useT _ x).mpr ⟨name, rfl⟩⟩

theorem nodup_flatMap_getID (useT : P.useT = true) {keys : List Nat} {p : Node P → Prop} (lists : Lists P keys p) :
    (keys.flatMap (inserts P hash items).mapTable.getID).Nodup := by
  refine List.nodup_flatMap.mpr ⟨fun k _ => nodup_getID_inserts items useT k, ?_⟩
  refine lists.nodup.imp_of_mem fun {k k'} hk hk' other x hx hx' => other ?_
  obtain ⟨b, rfl⟩ := lists.named k hk
  obtain ⟨b', rfl⟩ := lists.named k' hk'
  rw [← ((mem_getID_inserts items useT b x).mp hx).2, ← ((mem_getID_inserts items useT b' x).mp hx').2]

/-- A query for the names of the neighbours returns each name that was inserted for
    a neighbour once, and nothing else; a hidden self-loop is left out. -/
theorem nodeQuery_exact (useT : P.useT = true) (s1 : String) (type : Side) :
    (nodeQuery P hash (inserts P hash items) s1 type).Nodup ∧
      ∀ x, x ∈ nodeQuery P hash (inserts P hash items) s1 type ↔
        x ∈ names items ∧ Neighbour P hash items type (nodeOf P (hash s1)) (nodeOf P (hash x)) := by
  have models : Models _ (table P hash items) := models_inserts items
  have keys := @neighbourKeys_inserts P hash items (nodeOf P (hash s1)) type
  rw [nodeQuery_eq models]
  exact ⟨nodup_flatMap_getID items useT keys, mem_flatMap_getID items useT keys⟩

theorem nodeQuery_exact_small :
    (nodeQuery small rolling (inserts small rolling sampleItems) "a" .out).Nodup ∧
      ∀ x, x ∈ nodeQuery small rolling (inserts small rolling sampleItems) "a" .out ↔
        x ∈ names sampleItems ∧
          Neighbour small rolling sampleItems .out (nodeOf small (rolling "a")) (nodeOf small (rolling x)) :=
  nodeQuery_exact sampleItems rfl "a" .out

theorem length_flatMap_getID (m : HashTable String) (keys : List Nat) :
    (keys.flatMap m.getID).length = (keys.map m.countIDnums).sum := by
  rw [List.length_flatMap]
  exact congrArg List.sum (List.map_congr_left fun k _ => (m.countIDnums_eq k).symm)

/-- The degree is the number of names returned; but the names of the node itself are
    added to its out-degree if its list begins with an element of weight 0. -/
theorem nodeDegreeQuery_exact (useT : P.useT = true) (s1 : String) (type : Side) :
    nodeDegreeQuery P hash (inserts P hash items) s1 type =
      (nodeQuery P hash (inserts P hash items) s1 type).length +
        if type = .out ∧ ((inserts P hash items).chain ((node P (hash s1)).key P)).any (fun c => c.head.weight = 0) then
          ((names items).toFinset.filter fun x => nodeOf P (hash x) = nodeOf P (hash s1)).card else 0 := by
  have models : Models _ (table P hash items) := models_inserts items
  generalize ht : inserts P hash items = t at models ⊢
  have own : t.mapTable.countIDnums ((node P (hash s1)).key P) =
      ((names items).toFinset.filter fun x => nodeOf P (hash x) = nodeOf P (hash s1)).card := by
    have nodup := @nodup_getID_inserts P hash items useT ((node P (hash s1)).key P)
    rw [HashTable.countIDnums_eq, ← ht, ← List.toFinset_card_of_nodup nodup]
    congr 1
    ext x
    rw [List.mem_toFinset, Finset.mem_filter, List.mem_toFinset]
    exact mem_getID_inserts items useT (nodeOf P (hash s1)) x
  rw [nodeQuery_eq models, length_flatMap_getID, neighbourKeys, List.map_append, List.sum_append, List.map_append,
    List.sum_append, List.map_map]
  unfold nodeDegreeQuery
  cases type with
  | out =>
      simp only [true_and, Function.comp_def, bufferKeys]
      cases t.chain ((node P (hash s1)).key P) with
      | none => simp
      | some c =>
          by_cases zero : c.head.weight = 0#16
          · simp [zero, own, Function.comp_def, Nat.add_assoc, Nat.add_comm]
          · simp [zero, Function.comp_def]
  | into =>
      have lists : (t.index.map fun e => ((t.chainAt e).map fun c =>
          if c.next.any fun x => x.key = (node P (hash s1)).key P then t.mapTable.countIDnums c.head.key else 0).sum).sum =
          ((bufferKeys t ((node P (hash s1)).key P) .into).map t.mapTable.countIDnums).sum := by
        rw [← length_flatMap_getID, bufferKeys, ← models.lists_flatMap, List.length_flatMap]
        refine congrArg List.sum (List.map_congr_left fun e he => ?_)
        obtain ⟨c, only, -, sound, -⟩ := models.entry he
        rw [only, List.map_singleton, List.sum_singleton, List.flatMap_singleton, sound.head, HashTable.countIDnums_eq]
        split <;> rfl
      simp only [Function.comp_def, lists]
      cases t.chain ((node P (hash s1)).key P) with
      | none => simp
      | some c => by_cases zero : c.head.weight = 0#16 <;> simp [zero]

theorem nodeDegreeQuery_exact_small :
    nodeDegreeQuery small rolling (inserts small rolling sampleItems) "a" .out =
      (nodeQuery small rolling (inserts small rolling sampleItems) "a" .out).length +
        if Side.out = .out ∧ ((inserts small rolling sampleItems).chain ((node small (rolling "a")).key small)).any
          (fun c => c.head.weight = 0) then
          ((names sampleItems).toFinset.filter fun x => nodeOf small (rolling x) = nodeOf small (rolling "a")).card else 0 :=
  nodeDegreeQuery_exact sampleItems rfl "a" .out

end Table

end CuckooGraph.Gss
