import CuckooGraph.Graph.Successors
import CuckooGraph.Weighted.Accumulation

/-! # The successors of a source in the weighted build

A destination written inline has its weight in the word behind it.
`query_successor` lists this word too, as the unweighted build does.
-/

namespace CuckooGraph

namespace Weighted

open TwoLayer Holemerge

/-- The weight of an inline cell, read as an id. -/
def Cell.tail (c : Cell) : Key := c.weight.toInt32.toInt

namespace BSlot

variable (E : Env) (m : Memory Cell) (b : BSlot Cell) (src : Key)

/-- The ids which `bSlot::query_successor` writes. -/
def successors : List Key :=
  match b.body with
  | .chts slot => scanChts E m src slot
  | .inline pt cells => if pt = 0 then [] else cells.flatMap fun c => [c.dst, c.tail].filter (· ≠ 0)

/-- The ids which `bSlot::GetNeighbors` returns. -/
def neighbors : List Key :=
  match b.body with
  | .chts slot => scanChts E m src slot
  | .inline pt cells => if pt = 0 then [] else (cells.map Cell.dst).filter (· ≠ 0)

end BSlot

section Calls

variable (E : Env) (m : Memory Cell) (h : Holemerge Cell) (src : Key)

def querySuccessor (buf : Buffer) (U : Nat) : Buffer × Nat :=
  match h.findSlot E src with
  | some s => buf.write U (BSlot.successors E m s src)
  | none => (buf, 0)

/-- `Neighbor` is an id with a weight, which is always 1. -/
def getNeighbors : List (Key × Nat) :=
  match h.findSlot E src with
  | some s => (BSlot.neighbors E m s src).map (·, 1)
  | none => []

end Calls

variable {E : Env} {m : Memory Cell} {h : Holemerge Cell} {src : Key}

theorem Cell.tail_ne_zero {c : Cell} (positive : c.weight ≠ 0) : c.tail ≠ 0 := by
  intro zero
  have same : c.weight.toInt32 = 0 := Int32.toInt_inj.mp (zero.trans rfl)
  exact positive ((UInt32.toUInt32_toInt32 c.weight).symm.trans (congrArg Int32.toUInt32 same))

theorem length_cells {cells : List Cell} (blank : ∀ c ∈ cells, c.dst = 0 → c = Entry.zero)
    (positive : ∀ c ∈ cells, c.dst ≠ 0 → c.weight ≠ 0) :
    (cells.flatMap fun c => [c.dst, c.tail].filter (· ≠ 0)).length =
      2 * ((cells.map Cell.dst).filter (· ≠ 0)).length := by
  induction cells with
  | nil => rfl
  | cons c cells ih =>
      have rest := ih (fun d hd => blank d (List.mem_cons_of_mem c hd))
        fun d hd => positive d (List.mem_cons_of_mem c hd)
      rw [List.flatMap_cons, List.length_append, rest, List.map_cons]
      by_cases free : c.dst = 0
      · rw [blank c List.mem_cons_self free]
        have none : ([(Entry.zero : Cell).dst, (Entry.zero : Cell).tail].filter (· ≠ 0)) = [] := by decide
        rw [none, List.filter_cons_of_neg (by decide), List.length_nil, zero_add]
      · have tail := Cell.tail_ne_zero (positive c List.mem_cons_self free)
        have both : [c.dst, c.tail].filter (· ≠ 0) = [c.dst, c.tail] := by simp [free, tail]
        rw [both, List.filter_cons_of_pos (by simpa using free), List.length_cons]
        simp only [List.length_cons, List.length_nil]
        omega

/-- Inline, a weight is listed with each destination. -/
theorem BSlot.length_successors (E : Env) (m : Memory Cell) (src : Key) {b : BSlot Cell} {pt : Nat} {cells : List Cell}
    (body : b.body = .inline pt cells) (tidy : b.Tidy) (positive : ∀ c ∈ filled cells, c.weight ≠ 0) :
    (successors E m b src).length = 2 * (neighbors E m b src).length ∧
      (neighbors E m b src).length = pt := by
  have inline : Inline b.src pt cells := by simpa only [BSlot.Tidy, body] using tidy
  simp only [successors, neighbors, body]
  split
  · rename_i zero
    simp [zero]
  · refine ⟨length_cells inline.blank fun c hc used => positive c (mem_filled.mpr ⟨hc, used⟩), ?_⟩
    rw [← inline.count, filled, Multiset.filter_coe, Multiset.coe_card, List.filter_map, List.length_map]
    rfl

section Positive

/-- The weights inserted for an edge, not reduced. -/
def sumOf (ws : List (Edge × UInt32)) (e : Edge) : Nat :=
  ((ws.filter fun p => p.1 = e).map fun p => p.2.toNat).sum

theorem sumOf_snoc (ws : List (Edge × UInt32)) (p : Edge × UInt32) (f : Edge) :
    sumOf (ws ++ [p]) f = sumOf ws f + if p.1 = f then p.2.toNat else 0 := by
  by_cases same : p.1 = f <;> simp [sumOf, same]

theorem toNat_add {a k : UInt32} {n w : Nat} (low : a.toNat ≤ n) (small : k.toNat ≤ w)
    (bound : n + w < 2 ^ 32) : (a + k).toNat = a.toNat + k.toNat := by
  rw [UInt32.toNat_add]
  exact Nat.mod_eq_of_lt (by omega)

/-- An insertion with a weight adds something, but not more. -/
theorem weightIn_grows (whole : Whole E m h) {e : Edge} (hs : e.src ≠ 0) (hd : e.dst ≠ 0) {w : UInt32}
    (positive : w ≠ 0) : ∃ k : UInt32, 1 ≤ k.toNat ∧ k.toNat ≤ w.toNat ∧
      weightIn (entries E (insert E m h e w).1 (insert E m h e w).2.1 e.src) e.dst =
        weightIn (entries E m h e.src) e.dst + k := by
  have large : 1 ≤ w.toNat := Nat.one_le_iff_ne_zero.mpr fun zero => positive (UInt32.toNat_inj.mp zero)
  by_cases loose : Loose E m h e
  · exact ⟨1, le_refl _, large, (weightIn_insert whole hs hd).1 loose⟩
  · exact ⟨w, large, le_refl _, (weightIn_insert whole hs hd).2 loose⟩

variable (E) {l1 l2 : Nat} (sizes : 2 ≤ l2 ∧ l2 ≤ l1) (s1 s2 : Int) (ws : List (Edge × UInt32))
  (known : ∀ p ∈ ws, p.1.src ≠ 0 ∧ p.1.dst ≠ 0) (positive : ∀ p ∈ ws, p.2 ≠ 0)
  (bounded : ∀ e, sumOf ws e < 2 ^ 32)

include sizes known positive bounded

/-- With positive weights and totals below `2^32` no stored weight is 0. -/
theorem weightIn_positive (f : Edge) :
    let s := weighted E s1 s2 ws l1 l2
    (weightIn (entries E s.1 s.2 f.src) f.dst).toNat ≤ sumOf ws f ∧
      (f ∈ ws.map Prod.fst → weightIn (entries E s.1 s.2 f.src) f.dst ≠ 0) := by
  induction ws using List.reverseRecOn with
  | nil =>
      have none : entries E (weighted E s1 s2 [] l1 l2).1 (weighted E s1 s2 [] l1 l2).2 f.src = 0 := by
        rw [weighted, insertWeights, List.foldl_nil, entries, fresh_slots]
        rfl
      simp [none, weightIn, sumOf]
  | append_singleton ws p ih =>
      have earlier : ∀ q ∈ ws, q.1.src ≠ 0 ∧ q.1.dst ≠ 0 := fun q hq => known q (by simp [hq])
      obtain ⟨hs, hd⟩ := known p (by simp)
      have whole := weighted_whole E sizes s1 s2 ws earlier
      have room := bounded p.1
      rw [sumOf_snoc, if_pos rfl] at room
      obtain ⟨low, nonzero⟩ := ih earlier (fun q hq => positive q (by simp [hq])) fun e =>
        lt_of_le_of_lt (by rw [sumOf_snoc]; omega) (bounded e)
      rw [weighted_snoc, sumOf_snoc, List.map_append, List.mem_append]
      by_cases mine : p.1 = f
      · subst mine
        obtain ⟨k, large, small, sum⟩ := weightIn_grows whole hs hd (positive p (by simp))
        have exactly := toNat_add low small room
        rw [if_pos rfl]
        dsimp only
        rw [sum, exactly]
        refine ⟨by omega, fun _ zero => ?_⟩
        rw [zero, UInt32.toNat_zero] at exactly
        omega
      · rw [if_neg mine, add_zero]
        dsimp only
        rw [weightIn_frame whole hs hd (Ne.symm mine)]
        refine ⟨low, fun member => member.elim nonzero fun last => ?_⟩
        exact absurd (by simpa using last) (Ne.symm mine)

/-- No weight that is stored is 0. -/
theorem stored_positive {src : Key} {c : Cell}
    (hc : c ∈ entries E (weighted E s1 s2 ws l1 l2).1 (weighted E s1 s2 ws l1 l2).2 src) :
    c.weight ≠ 0 ∧ (⟨src, c.dst⟩ : Edge) ∈ ws.map Prod.fst := by
  have whole := weighted_whole E sizes s1 s2 ws known
  have inserted := (weighted_dsts E sizes s1 s2 ws known ⟨src, c.dst⟩).mp
    (Multiset.mem_map_of_mem Cell.dst hc)
  have nonzero := (weightIn_positive E sizes s1 s2 ws known positive bounded ⟨src, c.dst⟩).2 inserted
  refine ⟨fun zero => nonzero ?_, inserted⟩
  obtain ⟨s, hs, rfl, mine⟩ := mem_entries.mp hc
  obtain ⟨rest, split⟩ := Multiset.exists_cons_of_mem hs
  dsimp only
  rw [entries_self whole.homed split, weightIn_mem (whole.exact.distinct s hs) mine, zero]

/-- A query finds the destinations which are stored. -/
theorem query_ne_zero {src d : Key} (hs : src ≠ 0) (hd : d ≠ 0) :
    query E (weighted E s1 s2 ws l1 l2).1 (weighted E s1 s2 ws l1 l2).2 ⟨src, d⟩ ≠ 0 ↔
      d ∈ (entries E (weighted E s1 s2 ws l1 l2).1 (weighted E s1 s2 ws l1 l2).2 src).map Cell.dst := by
  have stored := weighted_dsts E sizes s1 s2 ws known ⟨src, d⟩
  rw [query_eq (weighted_whole E sizes s1 s2 ws known) hs hd]
  constructor
  · intro nonzero
    by_contra absent
    exact nonzero (weightIn_absent fun c hc same => absent (Multiset.mem_map.mpr ⟨c, hc, same⟩))
  · exact fun here => (weightIn_positive E sizes s1 s2 ws known positive bounded ⟨src, d⟩).2 (stored.mp here)

/-- The successors are listed as a query finds them, and as `GetNeighbors` lists
    them, exactly if the source is not stored inline. -/
theorem querySuccessor_iff (src : Key) (hs : src ≠ 0) (buf : Buffer) (U : Nat) :
    let s := weighted E s1 s2 ws l1 l2
    let r := querySuccessor E s.1 s.2 src buf U
    let ids := r.1.slice U r.2
    (ids.Nodup ∧ (∀ d, d ∈ ids ↔ d ≠ 0 ∧ query E s.1 s.2 ⟨src, d⟩ ≠ 0) ∧
      getNeighbors E s.1 s.2 src = ids.map (·, 1)) ↔
    ∀ b, s.2.findSlot E src = some b → b.pt = -1 := by
  intro s r ids
  have whole : Whole E s.1 s.2 := weighted_whole E sizes s1 s2 ws known
  have asked : ∀ d, d ≠ 0 → (query E s.1 s.2 ⟨src, d⟩ ≠ 0 ↔ d ∈ (entries E s.1 s.2 src).map Cell.dst) := fun d =>
    query_ne_zero E sizes s1 s2 ws known positive bounded hs
  have listed : ∀ list, r = buf.write U list → ids = list := by
    intro list same
    obtain ⟨count, slice, -⟩ := Buffer.write_spec buf U list
    simp only [ids, same, count, slice]
  by_cases present : ∃ b ∈ s.2.slots E, b.src = src
  · obtain ⟨b, hb, same⟩ := present
    have found := findSlot_eq whole.grounded.framed whole.homed hs hb same
    obtain ⟨rest, split⟩ := Multiset.exists_cons_of_mem hb
    have self := entries_self whole.homed split
    rw [same] at self
    obtain ⟨tidy, used⟩ := whole.grounded.framed.slot_tidy hb
    have all := listed (BSlot.successors E s.1 b src) (by simp only [r, querySuccessor, found])
    have neighbors : getNeighbors E s.1 s.2 src = (BSlot.neighbors E s.1 b src).map (·, 1) := by
      simp only [getNeighbors, found]
    rw [all, neighbors, found]
    simp only [Option.some.injEq, forall_eq']
    cases body : b.body with
    | chts slot =>
        have coe : (↑(BSlot.successors E s.1 b src) : Multiset Key) = (entries E s.1 s.2 src).map Cell.dst := by
          simp only [BSlot.successors, body, self, BSlot.items, same]
          exact coe_scanChts E s.1 src slot
        have distinct : ((entries E s.1 s.2 src).map Cell.dst).Nodup := self ▸ whole.exact.distinct b hb
        refine iff_of_true ⟨?_, fun d => ?_, ?_⟩ (by simp [BSlot.pt, body])
        · rwa [← Multiset.coe_nodup, coe]
        · rw [← Multiset.mem_coe, coe]
          constructor
          · intro here
            have nonzero : d ≠ 0 := by
              obtain ⟨c, hc, rfl⟩ := Multiset.mem_map.mp here
              exact entries_known whole.grounded hc
            exact ⟨nonzero, (asked d nonzero).mpr here⟩
          · rintro ⟨nonzero, answer⟩
            exact (asked d nonzero).mp answer
        · simp only [BSlot.successors, BSlot.neighbors, body]
    | inline pt cells =>
        have stored : entries E s.1 s.2 src = filled cells := by simpa only [BSlot.items, body] using self
        obtain ⟨twice, once⟩ := BSlot.length_successors E s.1 src body tidy fun c hc =>
          (stored_positive E sizes s1 s2 ws known positive bounded (stored.symm ▸ hc)).1
        have nonzero : pt ≠ 0 := by simpa [BSlot.isSlotEmpty, BSlot.pt, body] using used
        refine iff_of_false (fun right => ?_) (by simp [BSlot.pt, body])
        have lengths := congrArg List.length right.2.2
        simp only [List.length_map] at lengths
        omega
  · have absent : ∀ b ∈ s.2.slots E, b.src ≠ src := fun b hb same => present ⟨b, hb, same⟩
    have missing := findSlot_none whole.grounded.framed hs absent
    have none := itemsOf_absent (E := E) (m := s.1) absent
    have all := listed [] (by simp [r, querySuccessor, missing, Buffer.write])
    rw [all, missing]
    refine iff_of_true ⟨List.nodup_nil, fun d => ?_, by simp [getNeighbors, missing]⟩ (by simp)
    have unstored : d ∉ (entries E s.1 s.2 src).map Cell.dst := by
      rw [entries, none]
      simp
    simp only [List.not_mem_nil, false_iff, not_and]
    exact fun hd answer => unstored ((asked d hd).mp answer)

end Positive

theorem sumOf_le (ws : List (Edge × UInt32)) (e : Edge) : sumOf ws e ≤ (ws.map fun p => p.2.toNat).sum :=
  (List.filter_sublist.map fun p : Edge × UInt32 => p.2.toNat).sum_le_sum fun _ _ => Nat.zero_le _

/-- Of four destinations in an S-CHT each is listed once. -/
theorem querySuccessor_four :
    let s := weighted colliding 0 221 [(⟨1, 2⟩, 5), (⟨1, 3⟩, 5), (⟨1, 4⟩, 5), (⟨1, 5⟩, 5)] bl1 bl2
    let r := querySuccessor colliding s.1 s.2 1 (fun _ => 0) 0
    (r.1.slice 0 r.2).Nodup := by
  refine ((querySuccessor_iff colliding default_sizes 0 221
    [(⟨1, 2⟩, 5), (⟨1, 3⟩, 5), (⟨1, 4⟩, 5), (⟨1, 5⟩, 5)] (by decide) (by decide)
    (fun e => (sumOf_le _ e).trans_lt (by decide)) 1 (by decide) (fun _ => 0) 0).mpr fun b found => ?_).1
  have pts : ((weighted colliding 0 221 [(⟨1, 2⟩, 5), (⟨1, 3⟩, 5), (⟨1, 4⟩, 5), (⟨1, 5⟩, 5)] bl1
      bl2).2.findSlot colliding 1).map BSlot.pt = some (-1) := by decide
  rw [found] at pts
  simpa using pts

/-- A weight is listed as a successor. -/
theorem weight_listed :
    let s := weighted colliding 0 221 [(⟨1, 2⟩, 5)] bl1 bl2
    let r := querySuccessor colliding s.1 s.2 1 (fun _ => 0) 0
    r.1.slice 0 r.2 = [2, 5] ∧ query colliding s.1 s.2 ⟨1, 5⟩ = 0 ∧
      getNeighbors colliding s.1 s.2 1 = [(2, 1)] := by
  decide

end Weighted

end CuckooGraph
