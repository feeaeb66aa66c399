import CuckooGraph.BreadthFirst
import CuckooGraph.Gss.Names

/-! # The search of `query`

The search goes along the edges in the baskets and in `buffer`, and ends when one
of them leads to the node asked for. A self-loop in `buffer` is passed over.
-/

namespace CuckooGraph.Gss

open Probing BreadthFirst

variable {P : Params} {hash : String → UInt32}

/-- The nodes to which the edges of a node lead, as `query` comes to them. -/
def nextNodes (P : Params) (t : Gss) (a : Node P) : List (Node P) :=
  ((((t.chain (a.1.key P)).elim [] Chain.nodes).filter fun x => x.key ≠ a.1.key P).map fun x =>
    asNode P (unpack P x.key)) ++ (rooms P .out t.value a.1).map fun room => asNode P (farNode P .out t.value room)

/-- Put a node into the queue. -/
def visitNode (P : Params) (s : Search) (b : Node P) : Search := s.visit b.1 (b.1.key P)

section Pass

variable {t : Gss} {st : Store (Node P × Node P) (Nat × Nat) Label (BitVec 16)} (models : Models t st)
  (settled : st.Settled (probes P))

include models

theorem Models.chain_named (a : Node P) :
    ∀ x ∈ (t.chain (a.1.key P)).elim [] Chain.nodes, ∃ b : Node P, x.key = b.1.key P := by
  cases here : t.chain (a.1.key P) with
  | none => intro x hx; cases hx
  | some c =>
      obtain ⟨sound, -⟩ := models.chains _ c here
      intro x hx
      rcases List.mem_cons.mp hx with rfl | hx
      · exact ⟨a, sound.head⟩
      · exact (sound.other x hx).2

include settled

theorem Models.direct_iff (a b : Node P) :
    direct P t.value a.1 b.1 = true ↔ st.inside (probes P) (a, b) ≠ none := by
  have bound := P.r_le
  simp only [direct, List.any_eq_true, List.mem_range]
  constructor
  · rintro ⟨i1, h1, i2, h2, j, hj, holds⟩
    simp only [Basket.holds, decide_eq_true_eq] at holds
    obtain ⟨places, src, dst⟩ := holds
    obtain ⟨x, y, i1', h1', i2', h2', -, pos, src', dst', srcPlace, dstPlace, -, here⟩ :=
      models.occupied settled (show (t.value (candidate P a.1 b.1 i1 i2).pos).src j ≠ 0 from src ▸ a.2.2.1)
    rw [srcPlace_eq, places, candidate_places _ _ (by omega)] at srcPlace
    rw [dstPlace_eq, places, candidate_places _ _ (by omega)] at dstPlace
    obtain rfl : i1 = i1' := by omega
    obtain rfl : i2 = i2' := by omega
    obtain ⟨row, column⟩ := pos_inj (Nat.mod_lt _ P.w_pos) (Nat.mod_lt _ P.w_pos) pos
    have source : a = x := Subtype.ext (row_inj a.2 x.2 (src.symm.trans src') row)
    have target : b = y := Subtype.ext (row_inj b.2 y.2 (dst.symm.trans dst') column)
    rw [source, target, here]
    exact Option.some_ne_none _
  · intro here
    obtain ⟨v, here⟩ := Option.ne_none_iff_exists'.mp here
    obtain ⟨q, hq, cell⟩ := (settled.inside_eq_some probes_apart).mp here
    obtain ⟨i1, h1, i2, h2, j, hj, rfl⟩ := mem_probes hq
    rw [← models.cells, view, Basket.cell_eq_some a.2.2.1] at cell
    exact ⟨i1, h1, i2, h2, j, hj, cell.1⟩

theorem Models.mem_rooms_out (a b : Node P) :
    b ∈ (rooms P .out t.value a.1).map (fun room => asNode P (farNode P .out t.value room)) ↔
      st.inside (probes P) (a, b) ≠ none := by
  refine Iff.trans ?_ ((models.roomKeys settled a .out).mem b)
  simp only [List.mem_map]
  refine exists_congr fun room => and_congr_right fun stop => ?_
  obtain ⟨b', far, -⟩ := models.room_edge settled stop
  rw [far, asNode_val, node_key_inj]

/-- The edges which the search sees. -/
theorem Models.mem_nextNodes (a b : Node P) :
    b ∈ nextNodes P t a ↔ st.value (probes P) (a, b) ≠ none ∧ (a = b → st.inside (probes P) (a, a) ≠ none) := by
  have lists : b ∈ (((t.chain (a.1.key P)).elim [] Chain.nodes).filter fun x => x.key ≠ a.1.key P).map (fun x =>
      asNode P (unpack P x.key)) ↔ b ≠ a ∧ st.spilled (a, b) ≠ none := by
    refine Iff.trans ?_ ((models.bufferKeys a .out).mem b)
    unfold Gss.bufferKeys
    cases here : t.chain (a.1.key P) with
    | none => simp
    | some c =>
        obtain ⟨sound, -⟩ := models.chains _ c here
        simp only [Option.elim_some, List.mem_map, List.mem_filter, decide_eq_true_eq, Chain.nodes, List.mem_cons]
        constructor
        · rintro ⟨x, ⟨rfl | hx, away⟩, rfl⟩
          · exact absurd sound.head away
          · obtain ⟨-, b', key⟩ := sound.other x hx
            exact ⟨x, hx, by rw [key, asNode_unpack]⟩
        · rintro ⟨x, hx, key⟩
          exact ⟨x, ⟨.inr hx, (sound.other x hx).1⟩, by rw [key, asNode_unpack]⟩
  rw [nextNodes, List.mem_append, models.mem_rooms_out settled, lists]
  by_cases same : b = a
  · subst same
    rcases settled.value_cases (b, b) with ⟨none, value⟩ | ⟨none, value⟩ <;> simp [none, value]
  · rcases settled.value_cases (a, b) with ⟨none, value⟩ | ⟨none, value⟩ <;> simp [none, value, same, Ne.symm same]

end Pass

section Loop

variable {t : Gss} {st : Store (Node P × Node P) (Nat × Nat) Label (BitVec 16)} (models : Models t st)
  (settled : st.Settled (probes P))

omit models settled in
/-- A walk along a list ends at the node asked for, or puts the others into the queue. -/
theorem walkChain_eq (a b : Node P) (l : List Linknode) (named : ∀ x ∈ l, ∃ c : Node P, x.key = c.1.key P) (s : Search) :
    walkChain P (a.1.key P) b.1 s l =
      let found := (l.filter fun x => x.key ≠ a.1.key P).map fun x => asNode P (unpack P x.key)
      if b ∈ found then none else some (found.foldl (visitNode P) s) := by
  induction l generalizing s with
  | nil => rfl
  | cons x l ih =>
      obtain ⟨⟨c, key⟩, rest⟩ := List.forall_mem_cons.mp named
      unfold walkChain at ih ⊢
      rw [List.foldlM_cons]
      by_cases own : x.key = a.1.key P
      · have skip : (x :: l).filter (fun x => x.key ≠ a.1.key P) = l.filter fun x => x.key ≠ a.1.key P :=
          List.filter_cons_of_neg (by simpa using own)
        rw [if_pos own, skip]
        exact ih rest s
      · have keep : (x :: l).filter (fun x => x.key ≠ a.1.key P) = x :: l.filter fun x => x.key ≠ a.1.key P :=
          List.filter_cons_of_pos (by simpa using own)
        rw [if_neg own, keep, List.map_cons, key, asNode_unpack, unpack_key c.2]
        by_cases here : c = b
        · rw [here, if_pos rfl, if_pos List.mem_cons_self]
          rfl
        · rw [if_neg fun same => here (Subtype.ext same)]
          refine (ih rest _).trans ?_
          simp only [List.mem_cons, Ne.symm here, false_or, List.foldl_cons]
          rfl

include models settled

theorem Models.searchPass_eq (a b : Node P) (s : Search) :
    searchPass P t b.1 a.1 s =
      if b ∈ nextNodes P t a then none else some ((nextNodes P t a).foldl (visitNode P) s) := by
  have visits : ∀ s, (rooms P .out t.value a.1).foldl (fun s room =>
      s.visit (farNode P .out t.value room) ((farNode P .out t.value room).key P)) s =
      ((rooms P .out t.value a.1).map fun room => asNode P (farNode P .out t.value room)).foldl (visitNode P) s := by
    intro s
    rw [List.foldl_map]
    refine List.foldl_ext _ _ _ fun s room stop => ?_
    obtain ⟨b', far, -⟩ := models.room_edge settled stop
    rw [visitNode, far, asNode_val]
  have baskets : direct P t.value a.1 b.1 = true ↔
      b ∈ (rooms P .out t.value a.1).map (fun room => asNode P (farNode P .out t.value room)) :=
    (models.direct_iff settled a b).trans (models.mem_rooms_out settled a b).symm
  unfold searchPass nextNodes
  rw [walkChain_eq a b _ (models.chain_named a)]
  by_cases inside : direct P t.value a.1 b.1 = true
  · rw [if_pos inside, if_pos (List.mem_append_right _ (baskets.mp inside))]
  · rw [if_neg inside]
    dsimp only
    by_cases listed : b ∈ (((t.chain (a.1.key P)).elim [] Chain.nodes).filter fun x => x.key ≠ a.1.key P).map fun x =>
        asNode P (unpack P x.key)
    · rw [if_pos listed, if_pos (List.mem_append_left _ listed)]
      rfl
    · rw [if_neg listed, if_neg fun here => (List.mem_append.mp here).elim listed fun there => inside (baskets.mpr there),
        Option.map_some, visits, List.foldl_append]

end Loop

section Search

variable {t : Gss} {a b u : Node P} {done rest : List (Node P)} {s : Search}

/-- What is behind a state of the search. -/
structure Searched (P : Params) (t : Gss) (a b : Node P) (done queue : List (Node P)) (s : Search) : Prop where
  found : Found (nextNodes P t) a done queue
  q : s.q = queue.map Subtype.val
  checked : ∀ v : Node P, s.checked (v.1.key P) = true ↔ v ∈ done ++ queue
  missed : ∀ u ∈ done, b ∉ nextNodes P t u

theorem searched_start (t : Gss) (a b : Node P) :
    Searched P t a b [] [a] ⟨[a.1], Function.update (fun _ => false) (a.1.key P) true⟩ where
  found := found_start
  q := rfl
  checked := fun v => by
    by_cases here : v = a
    · simp [here]
    · simp [here, mt node_key_inj.mp here]
  missed := by simp

theorem visitNode_marks (s : Search) (x v : Node P) :
    (visitNode P s x).checked (v.1.key P) = true ↔ v = x ∨ s.checked (v.1.key P) = true := by
  unfold visitNode Search.visit
  split
  · rename_i seen
    exact ⟨.inr, fun either => either.elim (fun same => same ▸ seen) id⟩
  · by_cases here : v = x
    · simp [here]
    · simp [here, mt node_key_inj.mp here]

theorem visitNode_old {s : Search} {x : Node P} (old : s.checked (x.1.key P) = true) : visitNode P s x = s := if_pos old

theorem visitNode_new {s : Search} {x : Node P} (new : ¬ s.checked (x.1.key P) = true) :
    (visitNode P s x).q = s.q ++ [x.1] := by rw [visitNode, Search.visit, if_neg new]

theorem foldl_visitNode_q (xs : List (Node P)) (s : Search) :
    ∃ new : List (Node P), (xs.foldl (visitNode P) s).q = s.q ++ new.map Subtype.val := by
  induction xs generalizing s with
  | nil => exact ⟨[], (List.append_nil _).symm⟩
  | cons x xs ih =>
      obtain ⟨new, queue⟩ := ih (visitNode P s x)
      rw [List.foldl_cons]
      by_cases seen : s.checked (x.1.key P) = true
      · rw [visitNode_old seen] at queue ⊢
        exact ⟨new, queue⟩
      · rw [visitNode_new seen] at queue
        exact ⟨x :: new, by rw [queue, List.append_assoc]; rfl⟩

theorem map_asNode (xs : List (Node P)) : (xs.map Subtype.val).map (asNode P) = xs := by
  rw [List.map_map]
  exact (List.map_congr_left fun x _ => asNode_val x).trans xs.map_id

theorem appends_q : Appends id (fun (s : Search) (v : Node P) => s.checked (v.1.key P) = true) (visitNode P)
    fun s => s.q.map (asNode P) := by
  intro s x
  constructor
  · intro old
    exact congrArg (fun s => s.q.map (asNode P)) (visitNode_old old)
  · intro new
    have queue : (visitNode P s x).q = s.q ++ [x.1] := visitNode_new new
    simp only [queue, List.map_append, List.map_singleton, asNode_val, id]

/-- A node is taken out of the queue, and those it leads to are put in. -/
theorem Searched.pass (searched : Searched P t a b done (u :: rest) s) (missed : b ∉ nextNodes P t u) :
    ∃ fresh, Searched P t a b (done ++ [u]) (rest ++ fresh)
      ((nextNodes P t u).foldl (visitNode P) { s with q := rest.map Subtype.val }) := by
  obtain ⟨fresh, once, members, checked, logs⟩ :=
    scan_fresh id (fun (s : Search) (v : Node P) => s.checked (v.1.key P) = true) (visitNode P) visitNode_marks
      (nextNodes P t u) { s with q := rest.map Subtype.val }
  have log := logs _ appends_q
  obtain ⟨new, queue⟩ := foldl_visitNode_q (nextNodes P t u) { s with q := rest.map Subtype.val }
  have fresh_eq : new = fresh := by
    simpa only [queue, List.map_append, map_asNode, List.append_cancel_left_eq] using log
  have same : (done ++ [u]) ++ (rest ++ fresh) = (done ++ u :: rest) ++ fresh := by simp
  refine ⟨fresh, searched.found.pop once fun v => ?_, ?_, fun v => ?_, fun x hx => ?_⟩
  · rw [members, List.map_id, searched.checked]
  · rw [queue, fresh_eq, List.map_append]
  · rw [checked, searched.checked, same, List.mem_append (t := fresh)]
  · rcases List.mem_append.mp hx with hx | hx
    · exact searched.missed x hx
    · rwa [List.mem_singleton.mp hx]

theorem card_node_le : Fintype.card (Node P) ≤ P.w * 2 ^ P.f := by
  have bound := Fintype.card_le_of_injective (fun a : Node P => (⟨a.1.key P, key_lt a.2⟩ : Fin (P.w * 2 ^ P.f)))
    fun _ _ same => node_key_inj.mp (congrArg Fin.val same)
  rwa [Fintype.card_fin] at bound

/-- The search ends with an answer: is there an edge to the node from one that is reached? -/
theorem search_iff {st : Store (Node P × Node P) (Nat × Nat) Label (BitVec 16)} (models : Models t st)
    (settled : st.Settled (probes P)) (fuel : Nat) {queue : List (Node P)}
    (searched : Searched P t a b done queue s) (enough : P.w * 2 ^ P.f + 1 ≤ fuel + done.length) :
    ∃ found, search P t b.1 fuel s = some found ∧
      (found = true ↔ ∃ u, BreadthFirst.Reach (nextNodes P t) a u ∧ b ∈ nextNodes P t u) := by
  have bound : (done ++ queue).length ≤ P.w * 2 ^ P.f :=
    (searched.found.nodup.length_le_card).trans card_node_le
  rw [List.length_append] at bound
  induction fuel generalizing done queue s with
  | zero => omega
  | succ fuel ih =>
      have raw := searched.q
      cases queue with
      | nil =>
          simp only [search, raw, List.map_nil]
          refine ⟨false, rfl, fun never => absurd never Bool.false_ne_true, ?_⟩
          rintro ⟨u, reached, edge⟩
          exact absurd edge (searched.missed u (searched.found.complete.mpr reached))
      | cons u rest =>
          simp only [search, raw, List.map_cons, models.searchPass_eq settled u b]
          by_cases here : b ∈ nextNodes P t u
          · simp only [if_pos here]
            exact ⟨true, rfl, fun _ => ⟨u, searched.found.reached u (by simp), here⟩, fun _ => rfl⟩
          · simp only [if_neg here]
            obtain ⟨fresh, passed⟩ := searched.pass here
            have bound : ((done ++ [u]) ++ (rest ++ fresh)).length ≤ P.w * 2 ^ P.f :=
              (passed.found.nodup.length_le_card).trans card_node_le
            refine ih passed ?_ (by rwa [List.length_append] at bound)
            rw [List.length_append, List.length_singleton]
            omega

end Search

/-- The compressed edges which the search sees: not a self-loop in `buffer`. -/
def Visible (P : Params) (hash : String → UInt32) (items : List (String × String × Int)) (a b : Node P) : Prop :=
  (a, b) ∈ edges P hash items ∧ (a = b → (table P hash items).inside (probes P) (a, a) ≠ none)

/-- A query ends, and is answered with whether a path of items leads from node to node.
    If the two nodes are the same, a self-loop in `buffer` is no such path. -/
theorem query_exact (items : List (String × String × Int)) (s1 s2 : String) :
    ∃ answer, query P hash (inserts P hash items) s1 s2 = some answer ∧
      (answer = true ↔ Relation.TransGen (Visible P hash items) (nodeOf P (hash s1)) (nodeOf P (hash s2))) ∧
      (nodeOf P (hash s1) ≠ nodeOf P (hash s2) → (answer = true ↔
        Relation.TransGen (fun a b => (a, b) ∈ edges P hash items) (nodeOf P (hash s1)) (nodeOf P (hash s2)))) := by
  have models : Models _ (table P hash items) := models_inserts items
  have visible : ∀ a b, b ∈ nextNodes P (inserts P hash items) a ↔ Visible P hash items a b := fun a b =>
    (models.mem_nextNodes (settled_table items) a b).trans (and_congr_left fun _ => value_ne_none items (a, b))
  obtain ⟨answer, ends, found⟩ := search_iff models (settled_table items) (P.w * 2 ^ P.f + 1)
    (searched_start (inserts P hash items) (nodeOf P (hash s1)) (nodeOf P (hash s2))) (Nat.le_add_right _ _)
  simp only [reach_iff, visible] at found
  have seen : answer = true ↔ Relation.TransGen (Visible P hash items) (nodeOf P (hash s1)) (nodeOf P (hash s2)) :=
    found.trans Relation.TransGen.tail'_iff.symm
  refine ⟨answer, ends, seen, fun apart => seen.trans ⟨fun path => path.lift id fun _ _ edge => edge.1, fun path => ?_⟩⟩
  -- the self-loops on a path can be left out
  have loopless : Relation.ReflTransGen (Visible P hash items) (nodeOf P (hash s1)) (nodeOf P (hash s2)) := by
    refine path.to_reflTransGen.lift' id fun x y edge => ?_
    by_cases loop : x = y
    · rw [loop]
    · exact .single ⟨edge, fun same => absurd same loop⟩
  exact (Relation.reflTransGen_iff_eq_or_transGen.mp loopless).resolve_left apart.symm

end CuckooGraph.Gss
