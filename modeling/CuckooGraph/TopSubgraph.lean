import CuckooGraph.Basic
import CuckooGraph.Numbering
import CuckooGraph.Selection
import Mathlib.Data.Prod.Lex

/-! # The subgraph of the busiest nodes

The drivers of the graph algorithms choose the `maxtopk` nodes of the greatest
degrees with a heap, number them from 1 on, and insert the edges between them.
-/

namespace CuckooGraph

open Numbering

/-- `Node_degree` -/
structure NodeDegree where
  node : Key
  val : Int
  deriving DecidableEq

def Compare (a b : NodeDegree) : Bool := if a.val = b.val then a.node < b.node else a.val < b.val

/-- The order which a heap makes of `Compare`. -/
instance : LinearOrder NodeDegree := LinearOrder.lift' (fun d => toLex (d.val, d.node)) fun a b same => by
  have both : (a.val, a.node) = (b.val, b.node) := same
  cases a
  cases b
  simp_all

namespace TopSubgraph

section Code

/-- Count an end of an edge in `node`. -/
def count (node : List NodeDegree) (v : Key) : List NodeDegree :=
  if node.any fun d => d.node = v then node.map fun d => if d.node = v then { d with val := d.val + 1 } else d
  else node ++ [⟨v, 1⟩]

/-- One pass of the first loop, over `ed` and `node`. -/
def countEdge (s : List Edge × List NodeDegree) (EE : Edge) : List Edge × List NodeDegree :=
  if EE ∈ s.1 then s else (EE :: s.1, count (count s.2 EE.src) EE.dst)

/-- `node`, whose entries come into `nd` in some order. -/
def node (edge : List Edge) : List NodeDegree := (edge.foldl countEdge ([], [])).2

/-- `topk`: the front of the heap again and again. There are none if the heap runs empty. -/
def topk (maxtopk : Nat) (nd : List NodeDegree) : Option (List Key) :=
  (Selection.select maxtopk nd).map (List.map NodeDegree.node)

/-- `mp` -/
def mp (topk : List Key) (v : Key) : Option Key := if v ∈ topk then some (number topk v : Int) else none

/-- The edges inserted. -/
def subgraph (topk : List Key) (edge : List Edge) : List Edge :=
  edge.filterMap fun e => (mp topk e.src).bind fun s => (mp topk e.dst).map fun d => ⟨s, d⟩

end Code

theorem compare_iff (a b : NodeDegree) : Compare a b = true ↔ a < b := by
  have order : a < b ↔ a.val < b.val ∨ a.val = b.val ∧ a.node < b.node := Prod.Lex.toLex_lt_toLex
  rw [order, Compare]
  by_cases same : a.val = b.val
  · simp [same]
  · simp [same]

/-- How often a node is an end of the edges, each edge counted once. -/
def degree (edge : List Edge) (v : Key) : Nat :=
  (edge.toFinset.filter fun e => e.src = v).card + (edge.toFinset.filter fun e => e.dst = v).card

/-- The order in which nodes are chosen: by degree, then by id. -/
def Busier (edge : List Edge) (u v : Key) : Prop :=
  degree edge v < degree edge u ∨ degree edge v = degree edge u ∧ v < u

/-- There is one entry for each node which is counted. -/
structure Tallies (node : List NodeDegree) (f : Key → Nat) : Prop where
  nodup : (node.map NodeDegree.node).Nodup
  members : ∀ d, d ∈ node ↔ d.val = f d.node ∧ 0 < f d.node

variable {node : List NodeDegree} {f : Key → Nat} {edge : List Edge}

theorem Tallies.count (tallies : Tallies node f) (v : Key) : Tallies (count node v) (Function.update f v (f v + 1)) := by
  unfold TopSubgraph.count
  split
  · rename_i known
    have names : (node.map fun d => if d.node = v then { d with val := d.val + 1 } else d).map NodeDegree.node =
        node.map NodeDegree.node := by
      rw [List.map_map]
      exact List.map_congr_left fun d _ => by by_cases here : d.node = v <;> simp [here]
    refine ⟨by rw [names]; exact tallies.nodup, fun d => ?_⟩
    rw [List.mem_map]
    constructor
    · rintro ⟨d', hd', rfl⟩
      obtain ⟨val, pos⟩ := (tallies.members d').mp hd'
      by_cases here : d'.node = v
      · simp [here, val]
      · simp [here, val, pos]
    · rintro ⟨val, pos⟩
      by_cases here : d.node = v
      · subst here
        obtain ⟨d', hd', same⟩ : ∃ d' ∈ node, d'.node = d.node := by simpa using known
        obtain ⟨old, -⟩ := (tallies.members d').mp hd'
        refine ⟨d', hd', ?_⟩
        rw [Function.update_self] at val
        cases d
        cases d'
        simp_all
      · rw [Function.update_of_ne here] at val pos
        exact ⟨d, (tallies.members d).mpr ⟨val, pos⟩, if_neg here⟩
  · rename_i unknown
    have new : v ∉ node.map NodeDegree.node := fun here => unknown (by simpa using here)
    have zero : f v = 0 := by
      by_contra some
      exact new (List.mem_map.mpr ⟨⟨v, f v⟩, (tallies.members _).mpr ⟨rfl, Nat.pos_of_ne_zero some⟩, rfl⟩)
    refine ⟨?_, fun d => ?_⟩
    · rw [List.map_append, List.map_singleton]
      exact List.nodup_append.mpr ⟨tallies.nodup, List.nodup_singleton _, fun a ha b hb same => by
        have here : a = v := same.trans (List.mem_singleton.mp hb)
        exact new (here ▸ ha)⟩
    · rw [List.mem_append, List.mem_singleton, tallies.members]
      by_cases here : d.node = v
      · subst here
        simp only [zero, Function.update_self]
        constructor
        · rintro (old | fresh)
          · exact absurd old.2 (Nat.lt_irrefl 0)
          · exact ⟨by simpa using congrArg NodeDegree.val fresh, Nat.one_pos⟩
        · rintro ⟨val, -⟩
          refine .inr ?_
          cases d
          simp_all
      · rw [Function.update_of_ne here]
        exact or_iff_left fun same => here (by rw [same])

theorem tallies_node (edge : List Edge) :
    (edge.foldl countEdge ([], [])).1.toFinset = edge.toFinset ∧ Tallies (TopSubgraph.node edge) (degree edge) := by
  induction edge using List.reverseRecOn with
  | nil => exact ⟨rfl, List.nodup_nil, fun d => by simp [TopSubgraph.node, degree]⟩
  | append_singleton edge e ih =>
      obtain ⟨seen, tallies⟩ := ih
      have all : (edge ++ [e]).toFinset = insert e edge.toFinset := by
        ext x
        simp
      have old : e ∈ (edge.foldl countEdge ([], [])).1 ↔ e ∈ edge.toFinset := by
        rw [← seen, List.mem_toFinset]
      simp only [TopSubgraph.node, List.foldl_append, List.foldl_cons, List.foldl_nil, countEdge]
      by_cases known : e ∈ edge.toFinset
      · rw [if_pos (old.mpr known)]
        have same : (edge ++ [e]).toFinset = edge.toFinset := by rw [all, Finset.insert_eq_of_mem known]
        refine ⟨by rw [seen, same], ?_⟩
        have kept : degree (edge ++ [e]) = degree edge := funext fun v => by rw [degree, degree, same]
        rw [kept]
        exact tallies
      · rw [if_neg (mt old.mp known)]
        refine ⟨by rw [List.toFinset_cons, seen, all], ?_⟩
        have more : degree (edge ++ [e]) =
            Function.update (Function.update (degree edge) e.src (degree edge e.src + 1)) e.dst
              (Function.update (degree edge) e.src (degree edge e.src + 1) e.dst + 1) := by
          funext v
          have ends : degree (edge ++ [e]) v =
              degree edge v + (if e.src = v then 1 else 0) + if e.dst = v then 1 else 0 := by
            have into : ∀ p : Edge → Prop, ∀ _ : DecidablePred p,
                ((insert e edge.toFinset).filter p).card = (edge.toFinset.filter p).card + if p e then 1 else 0 := by
              intro p _
              rw [Finset.filter_insert]
              split
              · exact Finset.card_insert_of_notMem fun here => known (Finset.mem_filter.mp here).1
              · rfl
            rw [degree, degree, all, into, into]
            omega
          rw [ends]
          by_cases first : v = e.src <;> by_cases last : v = e.dst
          · simp [← first, ← last]
          · simp [← first, last, Ne.symm last]
          · have other : ¬ e.src = e.dst := fun same => first (last.trans same.symm)
            simp [← last, first, Ne.symm first]
          · simp [first, last, Ne.symm first, Ne.symm last]
        rw [more]
        exact (tallies.count e.src).count e.dst

/-- No node is chosen twice. -/
theorem topk_nodup (edge : List Edge) {nd : List NodeDegree} (order : nd.Perm (TopSubgraph.node edge)) {maxtopk : Nat}
    {top : List Key} (chosen : topk maxtopk nd = some top) : top.length = maxtopk ∧ top.Nodup := by
  have enough : maxtopk ≤ nd.length := by
    by_contra few
    rw [topk, Selection.select_none (by omega)] at chosen
    cases chosen
  obtain ⟨first, rest, selected, split, length, -⟩ := Selection.select_spec enough
  rw [topk, selected, Option.map_some] at chosen
  obtain rfl := Option.some.inj chosen
  have once := ((split.trans order).map NodeDegree.node).nodup_iff.mpr (tallies_node edge).2.nodup
  rw [List.map_append] at once
  exact ⟨(List.length_map _).trans length, (List.nodup_append.mp once).1⟩

/-- The busiest nodes are chosen, from the busiest on; in which order they are in the
    map does not matter. -/
theorem topk_spec (edge : List Edge) {nd : List NodeDegree} (order : nd.Perm (TopSubgraph.node edge)) {maxtopk : Nat}
    (enough : maxtopk ≤ nd.length) : ∃ top, topk maxtopk nd = some top ∧ top.length = maxtopk ∧ top.Nodup ∧
      (∀ v ∈ top, 0 < degree edge v) ∧
      top.Pairwise (Busier edge) ∧ ∀ v ∈ top, ∀ u, u ∉ top → Busier edge v u := by
  obtain ⟨-, tallies⟩ := tallies_node edge
  obtain ⟨chosen, rest, selected, split, length, sorted, above⟩ := Selection.select_spec enough
  have whole := split.trans order
  have taken : topk maxtopk nd = some (chosen.map NodeDegree.node) := by
    rw [topk, selected]
    rfl
  obtain ⟨count, once⟩ := topk_nodup edge order taken
  have entry : ∀ d ∈ chosen ++ rest, d.val = degree edge d.node ∧ 0 < degree edge d.node := fun d hd =>
    (tallies.members d).mp (whole.subset hd)
  have before : ∀ a ∈ chosen ++ rest, ∀ b ∈ chosen ++ rest, b ≤ a → a.node ≠ b.node → Busier edge a.node b.node := by
    intro a ha b hb le other
    unfold Busier
    have lt : b < a := lt_of_le_of_ne le fun same => other (by rw [same])
    have order : b.val < a.val ∨ b.val = a.val ∧ b.node < a.node := Prod.Lex.toLex_lt_toLex.mp lt
    rw [(entry a ha).1, (entry b hb).1] at order
    exact_mod_cast order
  refine ⟨chosen.map NodeDegree.node, taken, count, once,
    fun v hv => ?_, ?_, fun v hv u hu => ?_⟩
  · obtain ⟨d, hd, rfl⟩ := List.mem_map.mp hv
    exact (entry d (List.mem_append_left rest hd)).2
  · rw [List.pairwise_map]
    have distinct : chosen.Pairwise fun a b => a.node ≠ b.node := List.pairwise_map.mp once
    refine (sorted.and distinct).imp_of_mem fun ha hb both => ?_
    exact before _ (List.mem_append_left rest ha) _ (List.mem_append_left rest hb) both.1 both.2
  · obtain ⟨a, ha, rfl⟩ := List.mem_map.mp hv
    by_cases active : 0 < degree edge u
    · have inside : (⟨u, degree edge u⟩ : NodeDegree) ∈ chosen ++ rest :=
        whole.symm.subset ((tallies.members _).mpr ⟨rfl, active⟩)
      rcases List.mem_append.mp inside with taken | left
      · exact absurd (List.mem_map.mpr ⟨_, taken, rfl⟩) hu
      · refine before a (List.mem_append_left rest ha) _ inside (above a ha _ left) fun same => hu ?_
        have here : a.node = u := same
        exact here ▸ List.mem_map.mpr ⟨a, ha, rfl⟩
    · have pos := (entry a (List.mem_append_left rest ha)).2
      exact .inl (by omega)

theorem topk_spec_two : ∃ top, topk 2 (TopSubgraph.node [⟨5, 6⟩, ⟨6, 5⟩, ⟨7, 5⟩]) = some top ∧ top.length = 2 ∧ top.Nodup ∧
    (∀ v ∈ top, 0 < degree [⟨5, 6⟩, ⟨6, 5⟩, ⟨7, 5⟩] v) ∧ top.Pairwise (Busier [⟨5, 6⟩, ⟨6, 5⟩, ⟨7, 5⟩]) ∧
      ∀ v ∈ top, ∀ u, u ∉ top → Busier [⟨5, 6⟩, ⟨6, 5⟩, ⟨7, 5⟩] v u :=
  topk_spec [⟨5, 6⟩, ⟨6, 5⟩, ⟨7, 5⟩] (.refl _) (by decide)

section Subgraph

variable {top : List Key}

theorem mp_eq_some {v : Key} {i : Key} : mp top v = some i ↔ v ∈ top ∧ (number top v : Int) = i := by
  unfold mp
  split
  · rename_i known
    simp [known]
  · rename_i unknown
    simp [unknown]

/-- The ids inserted are 1 to `maxtopk`. -/
theorem subgraph_inside {e : Edge} (he : e ∈ subgraph top edge) :
    (1 ≤ e.src ∧ e.src ≤ top.length) ∧ 1 ≤ e.dst ∧ e.dst ≤ top.length := by
  obtain ⟨f, -, made⟩ := List.mem_filterMap.mp he
  obtain ⟨s, src, made⟩ := Option.bind_eq_some_iff.mp made
  obtain ⟨d, dst, rfl⟩ := Option.map_eq_some_iff.mp made
  obtain ⟨hs, rfl⟩ := mp_eq_some.mp src
  obtain ⟨hd, rfl⟩ := mp_eq_some.mp dst
  have first := List.idxOf_lt_length_of_mem hs
  have last := List.idxOf_lt_length_of_mem hd
  have inside : ∀ n : Nat, n < top.length → (1 : Int) ≤ ((n + 1 : Nat) : Int) ∧ ((n + 1 : Nat) : Int) ≤ top.length := by
    intro n hn
    omega
  exact ⟨inside _ first, inside _ last⟩

/-- The edges inserted are those between the nodes chosen, under their numbers. -/
theorem mem_subgraph (nodup : top.Nodup) (i j : Fin top.length) :
    ⟨(j : Int) + 1, (i : Int) + 1⟩ ∈ subgraph top edge ↔ ⟨top.get j, top.get i⟩ ∈ edge := by
  have named : ∀ (v : Key) (l : Fin top.length), v ∈ top ∧ (number top v : Int) = (l : Int) + 1 ↔ v = top.get l := by
    intro v l
    constructor
    · rintro ⟨hv, same⟩
      have index : top.idxOf v = l := by
        simp only [number] at same
        omega
      have here := List.getElem_idxOf (List.idxOf_lt_length_of_mem hv)
      simp only [index] at here
      exact here.symm
    · rintro rfl
      refine ⟨List.get_mem top l, ?_⟩
      rw [number, List.get_eq_getElem, nodup.idxOf_getElem]
      simp
  simp only [subgraph, List.mem_filterMap, Option.bind_eq_some_iff, Option.map_eq_some_iff, mp_eq_some, Edge.mk.injEq]
  constructor
  · rintro ⟨e, he, s, first, d, last, rfl, rfl⟩
    rw [← (named _ _).mp first, ← (named _ _).mp last]
    exact he
  · intro he
    exact ⟨_, he, _, (named _ _).mpr rfl, _, (named _ _).mpr rfl, rfl, rfl⟩

end Subgraph

end TopSubgraph

end CuckooGraph
