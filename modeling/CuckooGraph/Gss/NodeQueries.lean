import CuckooGraph.Counting
import CuckooGraph.Gss.Rows

/-! # The node queries

What a node query comes to, in the baskets and in `buffer`, is each edge of the
node once. Only a self-loop in `buffer` is taken for missing if its weights add up
to 0: the first element of a list is there in any case.
-/

namespace CuckooGraph.Gss

open Probing

variable {P : Params} {hash : String → UInt32}

noncomputable instance : Fintype (Node P) :=
  Fintype.ofInjective (fun a : Node P => (⟨a.1.key P, key_lt a.2⟩ : Fin (P.w * 2 ^ P.f))) fun _ _ same =>
    node_key_inj.mp (congrArg Fin.val same)

instance (m : Mapnode) : Decidable (m.Valid P) := inferInstanceAs (Decidable (_ ∧ _ ∧ _))

/-- A compressed node, if it is one. -/
def asNode (P : Params) (m : Mapnode) : Node P := if valid : m.Valid P then ⟨m, valid⟩ else nodeOf P 0

@[simp] theorem asNode_val (a : Node P) : asNode P a.1 = a := dif_pos a.2

@[simp] theorem asNode_unpack (a : Node P) : asNode P (unpack P (a.1.key P)) = a := by rw [unpack_key a.2, asNode_val]

section Measures

variable {f : Int → Int} (zero : f 0 = 0)

include zero

/-- What has spilled weighs nothing if it is in the table, and the other way round. -/
theorem value_split {st : Store (Node P × Node P) (Nat × Nat) Label (BitVec 16)} (settled : st.Settled (probes P))
    (e : Node P × Node P) : f ((st.value (probes P) e).getD 0).toInt =
      f ((st.inside (probes P) e).getD 0).toInt + f ((st.spilled e).getD 0).toInt := by
  rcases settled.value_cases e with ⟨none, value⟩ | ⟨none, value⟩ <;> simp [none, value, zero]

theorem weightAt_sum {l : List Linknode} (nodup : (l.map Linknode.key).Nodup) (k : Nat) :
    ((l.filter fun node => node.key = k).map fun node => f node.weight.toInt).sum = f ((weightAt l k).getD 0).toInt := by
  induction l with
  | nil => exact zero.symm
  | cons node l ih =>
      obtain ⟨new, rest⟩ := List.nodup_cons.mp (by simpa only [List.map_cons] using nodup)
      rw [weightAt_cons]
      by_cases here : node.key = k
      · have none : l.filter (fun node => node.key = k) = [] := by
          rw [List.filter_eq_nil_iff]
          intro node' there
          simpa using fun same => new (List.mem_map.mpr ⟨node', there, same.trans here.symm⟩)
        simp [here, none]
      · simp [here, ih rest]

section Values

variable {t : Gss} {st : Store (Node P × Node P) (Nat × Nat) Label (BitVec 16)} (models : Models t st)
  (settled : st.Settled (probes P)) (a : Node P)

include models

include settled in
/-- The rooms of a query have the weights of the edges in the baskets. -/
theorem Models.sum_rooms (side : Side) :
    ((rooms P side t.value a.1).map fun room => f ((t.value room.pos).weight room.j).toInt).sum =
      ∑ b, f ((st.inside (probes P) (side.edge a b)).getD 0).toInt := by
  classical
  refine Counting.sum_support _ (fun room => asNode P (farNode P side t.value room)) _ _ ?_ ?_ ?_
  · have nodup := models.nodup_far settled side a
    rw [← Function.comp_def (asNode P), ← List.map_map]
    refine nodup.map_on fun m hm m' hm' same => ?_
    obtain ⟨room, stop, rfl⟩ := List.mem_map.mp hm
    obtain ⟨room', stop', rfl⟩ := List.mem_map.mp hm'
    obtain ⟨b, far, -⟩ := models.room_edge settled stop
    obtain ⟨b', far', -⟩ := models.room_edge settled stop'
    rw [far, far', asNode_val, asNode_val] at same
    rw [far, far', same]
  · intro room stop
    obtain ⟨b, far, -, here⟩ := models.room_edge settled stop
    rw [far, asNode_val, here]
    rfl
  · intro b away
    cases here : st.inside (probes P) (side.edge a b) with
    | none => exact zero
    | some v =>
        obtain ⟨room, stop, far⟩ := models.edge_room settled here
        exact absurd (List.mem_map.mpr ⟨room, stop, by rw [far, asNode_val]⟩) away

/-- The list of a node has the weights of its edges in `buffer`. -/
theorem Models.sum_chain :
    ((t.chain (a.1.key P)).elim [] fun c => c.nodes.map fun node => f node.weight.toInt).sum =
      ∑ b, f ((st.spilled (a, b)).getD 0).toInt := by
  classical
  cases here : t.chain (a.1.key P) with
  | none =>
      refine (Finset.sum_eq_zero fun b _ => ?_).symm
      by_cases same : a = b
      · rw [← same, models.own, here]
        exact zero
      · rw [models.listed a b same, here]
        exact zero
  | some c =>
      obtain ⟨sound, -⟩ := models.chains _ c here
      have own := models.own a
      rw [here, Option.map_some, Option.getD_some] at own
      have keys : (c.nodes.map Linknode.key).Nodup := by
        refine List.nodup_cons.mpr ⟨fun there => ?_, sound.nodup⟩
        obtain ⟨node, hn, same⟩ := List.mem_map.mp there
        exact (sound.other node hn).1 (same.trans sound.head)
      have named : ∀ node ∈ c.nodes, ∃ b : Node P, node.key = b.1.key P := by
        intro node hn
        rcases List.mem_cons.mp hn with rfl | hn
        · exact ⟨a, sound.head⟩
        · exact (sound.other node hn).2
      rw [Option.elim_some]
      refine Counting.sum_support _ (fun node => asNode P (unpack P node.key)) _ _ ?_ ?_ ?_
      · have map : c.nodes.map (fun node => asNode P (unpack P node.key)) =
            (c.nodes.map Linknode.key).map fun k => asNode P (unpack P k) := by
          rw [List.map_map]
          rfl
        rw [map]
        refine keys.map_on fun k hk k' hk' same => ?_
        obtain ⟨node, hn, rfl⟩ := List.mem_map.mp hk
        obtain ⟨node', hn', rfl⟩ := List.mem_map.mp hk'
        obtain ⟨b, hb⟩ := named node hn
        obtain ⟨b', hb'⟩ := named node' hn'
        rw [hb, hb', asNode_unpack, asNode_unpack] at same
        rw [hb, hb', same]
      · intro node hn
        rcases List.mem_cons.mp hn with rfl | hn
        · rw [sound.head, asNode_unpack, own]
        · obtain ⟨away, b, hb⟩ := sound.other node hn
          have apart : a ≠ b := by
            rintro rfl
            exact away hb
          have found : weightAt c.next (b.1.key P) = some node.weight :=
            (weightAt_iff sound.nodup).mpr (by rw [← hb]; exact hn)
          rw [hb, asNode_unpack, models.listed a b apart, here, Option.bind_some, found]
          rfl
      · intro b away
        by_cases same : a = b
        · subst same
          refine absurd (List.mem_map.mpr ⟨c.head, List.mem_cons_self, ?_⟩) away
          rw [sound.head, asNode_unpack]
        · rw [models.listed a b same, here, Option.bind_some]
          cases found : weightAt c.next (b.1.key P) with
          | none => exact zero
          | some v =>
              have member := (weightAt_iff sound.nodup).mp found
              refine absurd (List.mem_map.mpr ⟨_, List.mem_cons_of_mem _ member, ?_⟩) away
              exact asNode_unpack b

omit zero in
/-- The entry of `index` for a list, and the list. -/
theorem Models.entry {e : Nat × Nat} (he : e ∈ t.index) :
    ∃ c, t.chainAt e = [c] ∧ t.chain e.1 = some c ∧ c.Sound P e.1 ∧ ∃ b : Node P, e.1 = b.1.key P := by
  have inside := models.indexed.tag_lt he
  have here : t.chain e.1 = some t.buffer[e.2] := by
    rw [models.indexed.chain_eq he, List.getElem?_eq_getElem inside]
  refine ⟨t.buffer[e.2], ?_, here, models.chains _ _ here⟩
  rw [chainAt, List.getElem?_eq_getElem inside, Option.toList_some]

/-- The lists of all nodes have the weights of the edges into a node. -/
theorem Models.sum_lists :
    ((t.chain (a.1.key P)).elim [] fun c => [f c.head.weight.toInt]).sum +
      (t.index.map fun e => ((t.chainAt e).map fun c =>
        ((c.next.filter fun node => node.key = a.1.key P).map fun node => f node.weight.toInt).sum).sum).sum =
      ∑ b, f ((st.spilled (b, a)).getD 0).toInt := by
  classical
  have head : ((t.chain (a.1.key P)).elim [] fun c => [f c.head.weight.toInt]).sum =
      f ((st.spilled (a, a)).getD 0).toInt := by
    rw [models.own]
    cases t.chain (a.1.key P) with
    | none => exact zero.symm
    | some c => exact List.sum_singleton
  have rest : (t.index.map fun e => ((t.chainAt e).map fun c =>
        ((c.next.filter fun node => node.key = a.1.key P).map fun node => f node.weight.toInt).sum).sum).sum =
      ∑ b, if b = a then 0 else f ((st.spilled (b, a)).getD 0).toInt := by
    refine Counting.sum_support _ (fun e => asNode P (unpack P e.1)) _ _ ?_ ?_ ?_
    · have map : t.index.map (fun e => asNode P (unpack P e.1)) =
          (t.index.map Prod.fst).map fun k => asNode P (unpack P k) := by
        rw [List.map_map]
        rfl
      rw [map]
      refine models.indexed.keys.map_on fun k hk k' hk' same => ?_
      obtain ⟨e, he, rfl⟩ := List.mem_map.mp hk
      obtain ⟨e', he', rfl⟩ := List.mem_map.mp hk'
      obtain ⟨-, -, -, -, b, hb⟩ := models.entry he
      obtain ⟨-, -, -, -, b', hb'⟩ := models.entry he'
      rw [hb, hb', asNode_unpack, asNode_unpack] at same
      rw [hb, hb', same]
    · intro e he
      obtain ⟨c, only, here, sound, b, hb⟩ := models.entry he
      rw [only, List.map_singleton, List.sum_singleton, weightAt_sum zero sound.nodup, hb, asNode_unpack]
      rw [hb] at here sound
      by_cases same : b = a
      · subst same
        have none : weightAt c.next (b.1.key P) = none := by
          refine Option.eq_none_iff_forall_ne_some.mpr fun v found => ?_
          exact (sound.other _ ((weightAt_iff sound.nodup).mp found)).1 rfl
        rw [if_pos rfl, none]
        exact zero
      · rw [if_neg same, models.listed b a same, here, Option.bind_some]
    · intro b away
      by_cases same : b = a
      · exact if_pos same
      · rw [if_neg same, models.listed b a same]
        have absent : t.chain (b.1.key P) = none := by
          refine models.indexed.chain_none.mpr fun here => away ?_
          obtain ⟨e, he, key⟩ := List.mem_map.mp here
          exact List.mem_map.mpr ⟨e, he, by rw [key, asNode_unpack]⟩
        rw [absent]
        exact zero
  rw [head, rest]
  have split : ∀ b : Node P, f ((st.spilled (b, a)).getD 0).toInt =
      (if b = a then f ((st.spilled (a, a)).getD 0).toInt else 0) +
        if b = a then 0 else f ((st.spilled (b, a)).getD 0).toInt := by
    intro b
    by_cases same : b = a <;> simp [same]
  rw [Finset.sum_congr rfl fun b _ => split b, Finset.sum_add_distrib, Finset.sum_ite_eq' Finset.univ a,
    if_pos (Finset.mem_univ a)]

end Values

end Measures

section Query

variable {f : Int → Int} (items : List (String × String × Int)) (s1 : String) (type : Side)

/-- The weights a query comes to are those of all edges of the compressed node. -/
theorem sum_nodeWeights (zero : f 0 = 0) :
    ((nodeWeights P (inserts P hash items) (nodeOf P (hash s1)).1 type).map f).sum =
      ∑ b, f (total P hash items (type.edge (nodeOf P (hash s1)) b).1 (type.edge (nodeOf P (hash s1)) b).2).toInt := by
  have models : Models _ (table P hash items) := models_inserts items
  have settled := @settled_table P hash items
  have split : ∀ b, f (total P hash items (type.edge (nodeOf P (hash s1)) b).1 (type.edge (nodeOf P (hash s1)) b).2).toInt =
      f (((table P hash items).inside (probes P) (type.edge (nodeOf P (hash s1)) b)).getD 0).toInt +
        f (((table P hash items).spilled (type.edge (nodeOf P (hash s1)) b)).getD 0).toInt := by
    intro b
    rw [← table_value_getD, ← value_split zero settled]
  rw [Finset.sum_congr rfl fun b _ => split b, Finset.sum_add_distrib, ← models.sum_rooms zero settled]
  unfold nodeWeights
  rw [List.map_append, List.sum_append, List.map_map]
  refine congrArg (_ + ·) ?_
  cases type with
  | out =>
      refine Eq.trans ?_ (models.sum_chain zero (nodeOf P (hash s1)))
      cases (inserts P hash items).chain ((nodeOf P (hash s1)).1.key P) with
      | none => rfl
      | some c => simp only [Option.elim_some, List.map_map, Function.comp_def]
  | into =>
      refine Eq.trans ?_ (models.sum_lists zero (nodeOf P (hash s1)))
      rw [List.map_append, List.sum_append]
      refine congrArg₂ (· + ·) ?_ ?_
      · cases (inserts P hash items).chain ((nodeOf P (hash s1)).1.key P) <;> rfl
      · rw [List.map_flatMap, List.flatMap_def, List.sum_flatten, List.map_map]
        refine congrArg List.sum (List.map_congr_left fun e _ => ?_)
        rw [Function.comp_apply, List.map_flatMap, List.flatMap_def, List.sum_flatten, List.map_map]
        simp only [Function.comp_def, List.map_map]

/-- A sum of `int`s whose absolute values add up to an `int` does not overflow. -/
theorem addWeights (ws : List Int) (weight : Int) (fits : |weight| + (ws.map (|·|)).sum < 2 ^ 31) :
    ws.foldlM addWeight weight = some (weight + ws.sum) := by
  induction ws generalizing weight with
  | nil => simp
  | cons w ws ih =>
      rw [List.map_cons, List.sum_cons] at fits
      have rest : 0 ≤ (ws.map (|·|)).sum := List.sum_nonneg fun x hx => by
        obtain ⟨y, -, rfl⟩ := List.mem_map.mp hx
        exact abs_nonneg y
      have step := abs_add_le weight w
      have range := abs_lt.mp (show |weight + w| < 2 ^ 31 by omega)
      rw [List.foldlM_cons, addWeight, if_pos ⟨range.1.le, range.2⟩, Option.bind_eq_bind, Option.bind_some,
        ih (weight + w) (by omega), List.sum_cons, add_assoc]

/-- A node query adds up the weights of all edges of the compressed node, if these are
    not too many for an `int`. -/
theorem nodeValueQuery_total (fits : ∑ b, |(total P hash items (type.edge (nodeOf P (hash s1)) b).1
      (type.edge (nodeOf P (hash s1)) b).2).toInt| < 2 ^ 31) :
    nodeValueQuery P hash (inserts P hash items) s1 type = some
      (∑ b, (total P hash items (type.edge (nodeOf P (hash s1)) b).1 (type.edge (nodeOf P (hash s1)) b).2).toInt) := by
  have sum := @sum_nodeWeights P hash id items s1 type rfl
  have absolute := @sum_nodeWeights P hash (|·|) items s1 type abs_zero
  rw [List.map_id] at sum
  rw [← absolute] at fits
  refine (addWeights _ 0 (by rwa [abs_zero, zero_add])).trans ?_
  rw [zero_add]
  exact congrArg some sum

end Query

/-- A small sketch. -/
def small : Params where
  w := 2
  r := 2
  p := 2
  s := 1
  f := 4
  useT := true
  tablesize := 5
  w_pos := by decide
  r_pos := by decide
  r_le := by decide
  s_le := by decide
  f_pos := by decide
  f_le := by decide
  area_lt := by decide
  nodes_lt := by decide
  table_pos := by decide

def rolling (s : String) : UInt32 := s.toList.foldl (fun a c => a * 31 + c.val) 7

/-- A triangle and an edge out of it, with one weight which is no `short`. -/
def sampleItems : List (String × String × Int) :=
  [("a", "b", 1), ("b", "c", 2), ("a", "c", 3), ("c", "d", 4), ("a", "b", 70000)]

/-- The edges into "c" weigh 2 and 3. -/
theorem nodeValueQuery_total_small : nodeValueQuery small rolling (inserts small rolling sampleItems) "c" .into = some 5 ∧
    ∑ b, (total small rolling sampleItems b (nodeOf small (rolling "c"))).toInt = 5 := by
  have asked : nodeValueQuery small rolling (inserts small rolling sampleItems) "c" .into = some 5 := by decide +kernel
  refine ⟨asked, ?_⟩
  refine Option.some.inj ((nodeValueQuery_total sampleItems "c" .into ?_).symm.trans asked)
  rw [← sum_nodeWeights sampleItems "c" .into abs_zero]
  decide +kernel

end CuckooGraph.Gss
