import CuckooGraph.Weighted.Insert

/-! # Weights over a run of insertions

An insertion changes the weight of its own edge only. It adds what it should if
the edge is new or in an S-CHT, and 1 otherwise.
-/

namespace CuckooGraph

namespace Weighted

open TwoLayer Holemerge

variable {E : Env} {m : Memory Cell} {h : Holemerge Cell} {e : Edge} {w : UInt32}

/-- The edge is stored, and not in an S-CHT. -/
def Loose (E : Env) (m : Memory Cell) (h : Holemerge Cell) (e : Edge) : Prop :=
  ∃ s ∈ h.slots E, s.src = e.src ∧ BSlot.Loose m s e.dst

theorem BSlot.Loose.stored {b : BSlot Cell} {dst : Key} (loose : Loose m b dst) (known : dst ≠ 0) :
    ∃ c ∈ b.items E m, c.dst = dst := by
  obtain ⟨src, body⟩ := b
  cases body with
  | inline pt cells =>
      obtain ⟨c, hc, rfl⟩ := loose
      exact ⟨c, mem_filled.mpr ⟨hc, known⟩, rfl⟩
  | chts slot =>
      obtain ⟨c, hc, rfl⟩ := loose
      exact ⟨c, Multiset.mem_add.mpr (.inr hc), rfl⟩

/-- What is in an S-CHT is not denylisted. -/
theorem BSlot.not_loose {src : Key} {slot : Three Addr} {c : Cell} (distinct : Distinct (chtItems E m src slot))
    (hc : c ∈ (slot.map m.heap.get).stored (chtCells E)) : ¬ Loose m ⟨src, .chts slot⟩ c.dst := by
  rintro ⟨d, own, same⟩
  rw [chtItems, Distinct, Multiset.map_add, Multiset.nodup_add] at distinct
  exact Multiset.disjoint_left.mp distinct.2.2 (Multiset.mem_map_of_mem Entry.dst hc)
    (Multiset.mem_map.mpr ⟨d, own, same⟩)

/-- The weight of another destination. -/
theorem Puts.weightIn {c : Cell} {items items' : Multiset Cell} (puts : Puts c items items') {dst : Key}
    (other : dst ≠ c.dst) : weightIn items' dst = weightIn items dst := by
  rcases puts with ⟨d, -, d', old, new, exchange⟩ | ⟨-, rfl⟩
  · have old : d.dst ≠ dst := fun same => other (same.symm.trans old)
    have new : d'.dst ≠ dst := fun same => other (same.symm.trans new)
    have weights := congrArg (Weighted.weightIn · dst) exchange
    simpa only [weightIn_add, weightIn_other old, weightIn_other new, add_zero] using weights
  · rw [weightIn_add, weightIn_other other.symm, add_zero]

section Step

variable (whole : Whole E m h) (known : e.src ≠ 0) (hd : e.dst ≠ 0)

include whole known hd

theorem insert_whole : Whole E (insert E m h e w).1 (insert E m h e w).2.1 :=
  insertArc_whole (e := arc e w) weightOps_faithful known hd whole

/-- What an insertion adds to the weight of its edge. -/
theorem weightIn_insert :
    let r := insert E m h e w
    (Loose E m h e → weightIn (entries E r.1 r.2.1 e.src) e.dst = weightIn (entries E m h e.src) e.dst + 1) ∧
      (¬ Loose E m h e →
        weightIn (entries E r.1 r.2.1 e.src) e.dst = weightIn (entries E m h e.src) e.dst + w) := by
  intro r
  rcases insertArc_source (e := arc e w) weightOps_faithful whole known hd with
    ⟨s, hs, same, before, after⟩ | ⟨absent, before, after⟩
  · have before : entries E m h e.src = s.items E m := before
    have after : entries E r.1 r.2.1 e.src = _ := after
    rw [before, after]
    have loose : Loose E m h e ↔ BSlot.Loose m s e.dst := by
      constructor
      · rintro ⟨s', hs', same', loose⟩
        rwa [← whole.homed.unique hs' hs (same'.trans same.symm)]
      · exact fun loose => ⟨s, hs, same, loose⟩
    have tidy := (whole.grounded.framed.slot_tidy hs).1
    have rooted := whole.grounded.rooted s hs
    have distinct := whole.exact.distinct s hs
    rcases BSlot.queryInsert_cases (e := arc e w) tidy rooted same known hd with
      ⟨-, absent⟩ | ⟨found, c, k, dst, credited, amount⟩
    · have touched := weightOps_faithful.touched m s (arc e w) tidy rooted
        (fun x hx => (whole.grounded.denied _ (Memory.mem_own.mp hx)).2) same known hd
      obtain ⟨-, ⟨c, stored, -, equal, -⟩ | ⟨-, items⟩⟩ := touched.puts (whole.homed.heeds s hs) distinct
      · exact absurd equal (absent c stored)
      · rw [items, weightIn_add]
        refine ⟨fun held => ?_, fun _ => congrArg _ (weightIn_single ⟨e.dst, w⟩)⟩
        obtain ⟨c, stored, equal⟩ := (loose.mp held).stored (E := E) hd
        exact absurd equal (absent c stored)
    · have dst : c.dst = e.dst := dst
      rw [touch_found found]
      have weights : weightIn ((BSlot.queryInsert E m s (arc e w)).2.1.items E
          (BSlot.queryInsert E m s (arc e w)).1) e.dst = weightIn (s.items E m) e.dst + k := by
        have exchange := congrArg (weightIn · e.dst) credited.items
        have single : weightIn {c.add k} e.dst = c.weight + k := dst ▸ weightIn_single (c.add k)
        rw [← dst] at exchange single ⊢
        simp only [weightIn_add, weightIn_single, single] at exchange
        apply add_right_cancel (b := c.weight)
        rw [exchange]
        ac_rfl
      rw [weights, loose, ← dst]
      rcases amount with ⟨rfl, held⟩ | ⟨rfl, slot, body, stored⟩
      · exact ⟨fun _ => rfl, fun none => absurd held none⟩
      · obtain ⟨src, _⟩ := s
        cases body
        exact ⟨fun held => absurd held (BSlot.not_loose distinct stored), fun _ => rfl⟩
  · have before : entries E m h e.src = 0 := before
    have after : entries E r.1 r.2.1 e.src = {⟨e.dst, w⟩} := after
    rw [before, after]
    refine ⟨fun ⟨s, hs, same, _⟩ => absurd same (absent s hs), fun _ => ?_⟩
    exact (weightIn_single ⟨e.dst, w⟩).trans (zero_add w).symm

theorem weightIn_frame {f : Edge} (other : f ≠ e) :
    let r := insert E m h e w
    weightIn (entries E r.1 r.2.1 f.src) f.dst = weightIn (entries E m h f.src) f.dst := by
  obtain ⟨src, dst⟩ := f
  by_cases mine : src = e.src
  · subst mine
    have puts := insertArc_puts (e := arc e w) weightOps_faithful whole known hd
    exact Puts.weightIn puts fun same => other (congrArg _ same)
  · intro r
    have frame : entries E r.1 r.2.1 src = entries E m h src :=
      insertArc_frame (e := arc e w) weightOps_faithful whole known hd mine
    rw [frame]

end Step

/-- Insertions in a row. -/
def insertWeights (E : Env) (s : Memory Cell × Holemerge Cell) (ws : List (Edge × UInt32)) :
    Memory Cell × Holemerge Cell :=
  ws.foldl (fun s p => ((insert E s.1 s.2 p.1 p.2).1, (insert E s.1 s.2 p.1 p.2).2.1)) s

/-- The weights inserted for an edge. -/
def total (ws : List (Edge × UInt32)) (e : Edge) : UInt32 :=
  ((ws.filter fun p => p.1 = e).map Prod.snd).sum

theorem insertWeights_whole {ws : List (Edge × UInt32)} (known : ∀ p ∈ ws, p.1.src ≠ 0 ∧ p.1.dst ≠ 0)
    (whole : Whole E m h) : Whole E (insertWeights E (m, h) ws).1 (insertWeights E (m, h) ws).2 := by
  induction ws generalizing m h with
  | nil => exact whole
  | cons p ws ih =>
      obtain ⟨hs, hd⟩ := known p List.mem_cons_self
      exact ih (fun q hq => known q (List.mem_cons_of_mem p hq)) (insert_whole whole hs hd)

section Run

variable (E) {l1 l2 : Nat} (sizes : 2 ≤ l2 ∧ l2 ≤ l1) (s1 s2 : Int) (ws : List (Edge × UInt32))
  (known : ∀ p ∈ ws, p.1.src ≠ 0 ∧ p.1.dst ≠ 0)

/-- The state after some insertions into a fresh graph. -/
def weighted (l1 l2 : Nat) : Memory Cell × Holemerge Cell :=
  insertWeights E (Memory.initial, fresh l1 l2 s1 s2) ws

theorem weighted_snoc (p : Edge × UInt32) : weighted E s1 s2 (ws ++ [p]) l1 l2 =
    let s := weighted E s1 s2 ws l1 l2
    ((insert E s.1 s.2 p.1 p.2).1, (insert E s.1 s.2 p.1 p.2).2.1) := by
  simp [weighted, insertWeights]

theorem total_snoc (p : Edge × UInt32) (f : Edge) :
    total (ws ++ [p]) f = total ws f + if p.1 = f then p.2 else 0 := by
  by_cases same : p.1 = f <;> simp [total, same]

include sizes known

theorem weighted_whole : Whole E (weighted E s1 s2 ws l1 l2).1 (weighted E s1 s2 ws l1 l2).2 :=
  insertWeights_whole known (fresh_whole sizes)

/-- The edges stored are those which were inserted. -/
theorem weighted_dsts (f : Edge) :
    f.dst ∈ (entries E (weighted E s1 s2 ws l1 l2).1 (weighted E s1 s2 ws l1 l2).2 f.src).map Cell.dst ↔
      f ∈ ws.map Prod.fst := by
  induction ws using List.reverseRecOn with
  | nil =>
      rw [weighted, insertWeights, List.foldl_nil, entries, fresh_slots]
      simp [itemsOf]
  | append_singleton ws p ih =>
      have earlier : ∀ q ∈ ws, q.1.src ≠ 0 ∧ q.1.dst ≠ 0 := fun q hq => known q (by simp [hq])
      obtain ⟨hs, hd⟩ := known p (by simp)
      have whole := weighted_whole E sizes s1 s2 ws earlier
      have step := insertArc_dsts (e := arc p.1 p.2) weightOps_faithful whole hs hd f.src f.dst
      rw [weighted_snoc, List.map_append, List.mem_append, ← ih earlier]
      refine step.trans (or_congr_right ?_)
      obtain ⟨src, dst⟩ := f
      obtain ⟨⟨src', dst'⟩, w⟩ := p
      simp [arc, Entry.dst]

theorem query_absent {e : Edge} (hs : e.src ≠ 0) (hd : e.dst ≠ 0) (absent : e ∉ ws.map Prod.fst) :
    query E (weighted E s1 s2 ws l1 l2).1 (weighted E s1 s2 ws l1 l2).2 e = 0 ∧
      ¬ Loose E (weighted E s1 s2 ws l1 l2).1 (weighted E s1 s2 ws l1 l2).2 e := by
  have whole := weighted_whole E sizes s1 s2 ws known
  rw [← weighted_dsts E sizes s1 s2 ws known] at absent
  have none : ∀ c ∈ entries E (weighted E s1 s2 ws l1 l2).1 (weighted E s1 s2 ws l1 l2).2 e.src,
      c.dst ≠ e.dst := fun c hc same => absent (same ▸ Multiset.mem_map_of_mem Cell.dst hc)
  rw [query_eq whole hs hd]
  refine ⟨weightIn_absent none, fun ⟨s, stored, same, loose⟩ => ?_⟩
  obtain ⟨c, hc, equal⟩ := loose.stored (E := E) hd
  obtain ⟨rest, split⟩ := Multiset.exists_cons_of_mem stored
  rw [← same, entries_self whole.homed split] at none
  exact none c hc equal

/-- An insertion leaves the weights of all other edges alone, and a new edge
    gets the weight inserted. -/
theorem insert_frame (e : Edge) (hs : e.src ≠ 0) (hd : e.dst ≠ 0) (w : UInt32) :
    let s := weighted E s1 s2 ws l1 l2
    let r := insert E s.1 s.2 e w
    (∀ f : Edge, f.src ≠ 0 → f.dst ≠ 0 → f ≠ e → query E r.1 r.2.1 f = query E s.1 s.2 f) ∧
      (e ∉ ws.map Prod.fst → query E r.1 r.2.1 e = w) := by
  intro s r
  have whole := weighted_whole E sizes s1 s2 ws known
  have after : Whole E r.1 r.2.1 := insert_whole whole hs hd
  refine ⟨fun f fs fd other => ?_, fun absent => ?_⟩
  · rw [query_eq after fs fd, query_eq whole fs fd]
    exact weightIn_frame whole hs hd other
  · obtain ⟨zero, fast⟩ := query_absent E sizes s1 s2 ws known hs hd absent
    rw [query_eq whole hs hd] at zero
    rw [query_eq after hs hd, (weightIn_insert whole hs hd).2 fast, zero, zero_add]

omit known in
/-- The weights of all edges add up after every insertion exactly if no weight
    but 1 is added to an edge outside the S-CHTs. -/
theorem query_total_iff (known : ∀ p ∈ ws, p.1.src ≠ 0 ∧ p.1.dst ≠ 0) :
    (∀ before, before <+: ws → ∀ f : Edge, f.src ≠ 0 → f.dst ≠ 0 →
      query E (weighted E s1 s2 before l1 l2).1 (weighted E s1 s2 before l1 l2).2 f = total before f) ↔
    ∀ before p, before ++ [p] <+: ws →
      Loose E (weighted E s1 s2 before l1 l2).1 (weighted E s1 s2 before l1 l2).2 p.1 → p.2 = 1 := by
  have inside : ∀ {before}, before <+: ws → ∀ q ∈ before, q.1.src ≠ 0 ∧ q.1.dst ≠ 0 :=
    fun part q hq => known q (part.subset hq)
  constructor
  · intro adds before p part loose
    have shorter := (List.prefix_append before [p]).trans part
    obtain ⟨hs, hd⟩ := inside part p (by simp)
    have whole := weighted_whole E sizes s1 s2 before (inside shorter)
    have first := adds before shorter p.1 hs hd
    have second := adds (before ++ [p]) part p.1 hs hd
    rw [query_eq whole hs hd] at first
    rw [weighted_snoc, query_eq (insert_whole whole hs hd) hs hd, (weightIn_insert whole hs hd).1 loose,
      total_snoc, if_pos rfl, first] at second
    exact (add_left_cancel second).symm
  · intro ones before part
    induction before using List.reverseRecOn with
    | nil =>
        intro f fs fd
        exact (query_absent E sizes s1 s2 [] (by simp) fs fd (by simp)).1
    | append_singleton before p ih =>
        intro f fs fd
        have shorter := (List.prefix_append before [p]).trans part
        obtain ⟨hs, hd⟩ := inside part p (by simp)
        have whole := weighted_whole E sizes s1 s2 before (inside shorter)
        have so_far := ih shorter f fs fd
        rw [query_eq whole fs fd] at so_far
        rw [weighted_snoc, query_eq (insert_whole whole hs hd) fs fd, total_snoc, ← so_far]
        by_cases mine : p.1 = f
        · subst mine
          rw [if_pos rfl]
          by_cases loose : Loose E (weighted E s1 s2 before l1 l2).1 (weighted E s1 s2 before l1 l2).2 p.1
          · rw [(weightIn_insert whole hs hd).1 loose, ones before p part loose]
          · exact (weightIn_insert whole hs hd).2 loose
        · rw [if_neg mine, add_zero]
          exact weightIn_frame whole hs hd (Ne.symm mine)

end Run

/-- 18 colliding destinations of a source, two of which are in `sblacklist`. -/
def heavy : List (Edge × UInt32) := (List.range 18).map fun i : Nat => (⟨1, i + 1⟩, .ofNat (i + 101))

/-- The 19th kicks others about, and one more into `sblacklist`. All keep their weights. -/
theorem insert_frame_kicked :
    let s := weighted colliding 0 221 heavy bl1 bl2
    let r := insert colliding s.1 s.2 ⟨1, 19⟩ 119
    s.1.sblacklist.length = 2 ∧ r.1.sblacklist.length = 3 ∧ query colliding r.1 r.2.1 ⟨1, 19⟩ = 119 ∧
      ∀ i : Nat, i < 18 → query colliding r.1 r.2.1 ⟨1, i + 1⟩ = .ofNat (i + 101) := by
  obtain ⟨frame, new⟩ := insert_frame colliding default_sizes 0 221 heavy (by decide) ⟨1, 19⟩ (by decide) (by decide) 119
  have before : ∀ i : Nat, i < 18 → query colliding (weighted colliding 0 221 heavy bl1 bl2).1
      (weighted colliding 0 221 heavy bl1 bl2).2 ⟨1, i + 1⟩ = .ofNat (i + 101) := by decide +kernel
  refine ⟨by decide +kernel, by decide +kernel, new (by decide), fun i hi => ?_⟩
  have known : (i : Int) + 1 ≠ 0 := by omega
  have other : (⟨1, i + 1⟩ : Edge) ≠ ⟨1, 19⟩ := by
    intro same
    have equal : (i : Int) + 1 = 19 := congrArg Edge.dst same
    omega
  rw [frame ⟨1, i + 1⟩ one_ne_zero known other]
  exact before i hi

/-- An insertion is repeated with weight 1. -/
theorem query_total_ones : query colliding (weighted colliding 0 221 [(⟨1, 2⟩, 5), (⟨1, 2⟩, 1)] bl1 bl2).1
    (weighted colliding 0 221 [(⟨1, 2⟩, 5), (⟨1, 2⟩, 1)] bl1 bl2).2 ⟨1, 2⟩ = 6 := by
  refine (query_total_iff colliding default_sizes 0 221 _ (by decide)).mpr
    (fun before p part loose => ?_) _ (List.prefix_refl _) ⟨1, 2⟩ (by decide) (by decide)
  obtain ⟨rest, whole⟩ := part
  rcases before with - | ⟨q, - | ⟨r, before⟩⟩
  · obtain ⟨s, stored, -⟩ := loose
    rw [weighted, insertWeights, List.foldl_nil, fresh_slots] at stored
    simp at stored
  · simp only [List.cons_append, List.nil_append, List.cons.injEq] at whole
    rw [whole.2.1]
  · simp at whole

/-- An edge is inserted twice with weight 5, and its weight is 6. -/
theorem weight_not_added : query colliding (weighted colliding 0 221 [(⟨1, 2⟩, 5), (⟨1, 2⟩, 5)] bl1 bl2).1
    (weighted colliding 0 221 [(⟨1, 2⟩, 5), (⟨1, 2⟩, 5)] bl1 bl2).2 ⟨1, 2⟩ = 6 ∧
    total [(⟨1, 2⟩, 5), (⟨1, 2⟩, 5)] ⟨1, 2⟩ = 10 := by
  decide

end Weighted

end CuckooGraph
