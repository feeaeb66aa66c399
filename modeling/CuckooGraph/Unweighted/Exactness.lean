import CuckooGraph.Unweighted.Run

/-! # Queries are exact

After any insertions a query finds exactly what was inserted. A deletion takes
its edge and no other one, unless it goes wrong.
-/

namespace CuckooGraph

open TwoLayer Holemerge

variable {E : Env} {s1 s2 : Int} {m : Memory Key} {h : Holemerge Key}

/-- Insertions in a row. -/
def insertEdges (E : Env) (s : Memory Key × Holemerge Key) (es : List Edge) :
    Memory Key × Holemerge Key :=
  es.foldl (fun s e => ((insert E s.1 s.2 e).1, (insert E s.1 s.2 e).2.1)) s

theorem insertEdges_append (s : Memory Key × Holemerge Key) (es es' : List Edge) :
    insertEdges E s (es ++ es') = insertEdges E (insertEdges E s es) es' := List.foldl_append

theorem Whole.query_iff (w : Whole E m h) {e : Edge} (known : e.src ≠ 0) (hd : e.dst ≠ 0) :
    h.query E m e ≠ 0 ↔ e.dst ∈ entries E m h e.src :=
  Holemerge.query_iff w.grounded w.homed known hd

/-- An insertion adds its edge. -/
theorem Whole.mem_insert (w : Whole E m h) {e : Edge} (known : e.src ≠ 0) (hd : e.dst ≠ 0) (f : Edge) :
    f.dst ∈ entries E (Holemerge.insert E m h e).1 (Holemerge.insert E m h e).2.1 f.src ↔
      f.dst ∈ entries E m h f.src ∨ f = e := by
  obtain ⟨src, dst⟩ := e
  obtain ⟨src', dst'⟩ := f
  have dsts := insertArc_dsts (e := Edge.arc ⟨src, dst⟩) edgeOps_faithful w known hd src' dst'
  simp only [Entry.dst, Multiset.map_id'] at dsts
  rw [Edge.mk.injEq]
  exact dsts

theorem insertEdges_whole (w : Whole E m h) {es : List Edge} (known : ∀ e ∈ es, e.src ≠ 0 ∧ e.dst ≠ 0) :
    Whole E (insertEdges E (m, h) es).1 (insertEdges E (m, h) es).2 ∧
      ∀ f : Edge, f.dst ∈ entries E (insertEdges E (m, h) es).1 (insertEdges E (m, h) es).2 f.src ↔
        f.dst ∈ entries E m h f.src ∨ f ∈ es := by
  induction es generalizing m h with
  | nil => exact ⟨w, fun f => by simp [insertEdges]⟩
  | cons e es ih =>
      obtain ⟨hs, hd⟩ := known e List.mem_cons_self
      obtain ⟨whole, stored⟩ := ih (w.insert hs hd) fun e he => known e (List.mem_cons_of_mem _ he)
      refine ⟨whole, fun f => (stored f).trans ?_⟩
      rw [w.mem_insert hs hd, List.mem_cons, or_assoc]

/-- The sources of a graph are those of the inserted edges. -/
theorem insertEdges_srcs (w : Whole E m h) {es : List Edge} (known : ∀ e ∈ es, e.src ≠ 0 ∧ e.dst ≠ 0)
    {s : BSlot Key} (hs : s ∈ (insertEdges E (m, h) es).2.slots E) :
    (∃ e ∈ es, s.src = e.src) ∨ s ∈ h.slots E := by
  induction es generalizing m h with
  | nil => exact .inr hs
  | cons e es ih =>
      obtain ⟨src, hd⟩ := known e List.mem_cons_self
      rcases ih (w.insert src hd) (fun e he => known e (List.mem_cons_of_mem _ he)) hs with
        ⟨f, hf, same⟩ | before
      · exact .inl ⟨f, List.mem_cons_of_mem e hf, same⟩
      · rcases insertArc_srcs (e := e.arc) edgeOps_faithful w.grounded src hd before with same | before
        · exact .inl ⟨e, List.mem_cons_self, same⟩
        · exact .inr before

theorem insertEdges_reached {G : Guard} (before : Reached G E s1 s2 m h) {es : List Edge}
    (known : ∀ e ∈ es, e.src ≠ 0 ∧ e.dst ≠ 0) :
    Reached G E s1 s2 (insertEdges E (m, h) es).1 (insertEdges E (m, h) es).2 := by
  induction es generalizing m h with
  | nil => exact before
  | cons e es ih =>
      obtain ⟨hs, hd⟩ := known e List.mem_cons_self
      exact ih (.insert e before hs hd) fun e he => known e (List.mem_cons_of_mem _ he)

/-- A fresh graph stores what is inserted. -/
theorem insertEdges_fresh (E : Env) {l1 l2 : Nat} (sizes : 2 ≤ l2 ∧ l2 ≤ l1) (s1 s2 : Int)
    {es : List Edge} (known : ∀ e ∈ es, e.src ≠ 0 ∧ e.dst ≠ 0) :
    let s := insertEdges E (Memory.initial, fresh l1 l2 s1 s2) es
    Whole E s.1 s.2 ∧ ∀ e : Edge, e.src ≠ 0 → e.dst ≠ 0 → (s.2.query E s.1 e ≠ 0 ↔ e ∈ es) := by
  obtain ⟨whole, stored⟩ := insertEdges_whole (fresh_whole (E := E) sizes) known
  refine ⟨whole, fun e hs hd => ?_⟩
  have none : entries E Memory.initial (fresh l1 l2 s1 s2 : Holemerge Key) e.src = 0 := by
    rw [entries, fresh_slots]
    rfl
  rw [whole.query_iff hs hd, stored e, none]
  simp

theorem locate_insertEdges (E : Env) (s1 s2 : Int) {es : List Edge}
    (known : ∀ e ∈ es, e.src ≠ 0 ∧ e.dst ≠ 0) (src : Key) (used : src ≠ 0) (absent : ∀ e ∈ es, src ≠ e.src) :
    (insertEdges E (Memory.initial, fresh bl1 bl2 s1 s2) es).2.locate E src = none := by
  have whole := (insertEdges_fresh E default_sizes s1 s2 known).1
  cases located : (insertEdges E (Memory.initial, fresh bl1 bl2 s1 s2) es).2.locate E src with
  | none => rfl
  | some place =>
      obtain ⟨loc, b⟩ := place
      obtain ⟨stands, rfl⟩ := locate_some whole.grounded.framed located
      have hb := stands.mem whole.grounded.framed used
      rcases insertEdges_srcs (fresh_whole default_sizes) known hb with ⟨e, he, equal⟩ | hb
      · exact absurd equal (absent e he)
      · exact absurd hb (Multiset.notMem_zero b)

/-- After any insertions into a fresh graph, a query finds exactly the inserted edges. -/
theorem query_insertEdges (E : Env) (s1 s2 : Int) (es : List Edge)
    (known : ∀ e ∈ es, e.src ≠ 0 ∧ e.dst ≠ 0) (e : Edge) (hs : e.src ≠ 0) (hd : e.dst ≠ 0) :
    let s := insertEdges E (Memory.initial, fresh bl1 bl2 s1 s2) es
    s.2.query E s.1 e ≠ 0 ↔ e ∈ es :=
  (insertEdges_fresh E default_sizes s1 s2 known).2 e hs hd

theorem query_insertEdges_repeated :
    (insertEdges colliding (Memory.initial, fresh bl1 bl2 0 221) [⟨1, 2⟩, ⟨3, 2⟩, ⟨1, 2⟩]).2.query colliding
      (insertEdges colliding (Memory.initial, fresh bl1 bl2 0 221) [⟨1, 2⟩, ⟨3, 2⟩, ⟨1, 2⟩]).1 ⟨3, 2⟩ ≠ 0 :=
  (query_insertEdges colliding 0 221 [⟨1, 2⟩, ⟨3, 2⟩, ⟨1, 2⟩] (by decide) ⟨3, 2⟩ (by decide)
    (by decide)).mpr (by decide)

/-- Each edge is stored once. -/
theorem Whole.nodup (w : Whole E m h) (src : Key) : (entries E m h src).Nodup := by
  by_cases present : ∃ s ∈ h.slots E, s.src = src
  · obtain ⟨s, hs, rfl⟩ := present
    obtain ⟨rest, split⟩ := Multiset.exists_cons_of_mem hs
    rw [entries_self w.homed split]
    exact Multiset.Nodup.of_map _ (w.exact.distinct s hs)
  · push Not at present
    rw [entries, itemsOf_absent present]
    exact Multiset.nodup_zero

/-- Outside the four failures `main_del` takes its edge and no other one. -/
theorem mainDel_query (reached : Reached Guard.counts E s1 s2 m h) (e : Edge) (hs : e.src ≠ 0)
    (hd : e.dst ≠ 0) (safe : Guard.counts.del E m h e) :
    let r := mainDel E m h e
    r.2.1.query E r.1 e = 0 ∧
      (∀ f : Edge, f.src ≠ 0 → f.dst ≠ 0 → f ≠ e → (r.2.1.query E r.1 f ≠ 0 ↔ h.query E m f ≠ 0)) ∧
      (r.2.2 = 1 ∨ r.2.2 = -1 ↔ h.query E m e ≠ 0) ∧
      ∀ src, (entries E r.1 r.2.1 src).Nodup := by
  have w := reached.whole
  have even : LinksEven E m h e := reached.even w.grounded
  have after : Whole E (mainDel E m h e).1 (mainDel E m h e).2.1 := w.mainDel hs hd even safe
  obtain ⟨links, plain, slots⟩ := safe
  obtain ⟨mine, ret, others⟩ :=
    mainDel_entries w.grounded hs hd even links w.homed plain w.exact slots
  intro r
  refine ⟨?_, fun f known hf ne => ?_, ?_, after.nodup⟩
  · by_contra found
    have stored : e.dst ∈ entries E r.1 r.2.1 e.src := (after.query_iff hs hd).mp found
    rw [mine] at stored
    exact (w.nodup e.src).notMem_erase stored
  · rw [after.query_iff known hf, w.query_iff known hf]
    obtain ⟨src, dst⟩ := f
    by_cases same : src = e.src
    · subst same
      have other : dst ≠ e.dst := fun equal => ne (by rw [equal])
      rw [mine]
      exact Multiset.mem_erase_of_ne other
    · rw [others src same]
  · rw [w.query_iff hs hd]
    exact ret

/-- The deletion of 1 → 149 pours one S-CHT into the two others. -/
theorem mainDel_query_poured :
    let s := played spread 1 0 221 thinCalls
    let r := mainDel spread s.1 s.2 ⟨1, 149⟩
    s.1.sblacklist = [⟨1, 216⟩] ∧ (s.2.locate spread 1).map (fun p => p.2.addrs.length) = some 3 ∧
      (r.2.1.locate spread 1).map (fun p => p.2.addrs.length) = some 2 ∧
      r.2.1.query spread r.1 ⟨1, 149⟩ = 0 ∧ r.2.1.query spread r.1 ⟨1, 216⟩ ≠ 0 ∧
      r.2.1.query spread r.1 ⟨1, 165⟩ ≠ 0 ∧ (r.2.2 = 1 ∨ r.2.2 = -1) := by
  obtain ⟨list, three, clean, found, denied, stored⟩ := thin_state
  obtain ⟨gone, others, ret, -⟩ := mainDel_query thin_reached.counts_of_clean ⟨1, 149⟩ (by decide) (by decide)
    (clean_counts clean)
  exact ⟨list, three, by decide +kernel, gone,
    (others ⟨1, 216⟩ (by decide) (by decide) (by decide)).mpr denied,
    (others ⟨1, 165⟩ (by decide) (by decide) (by decide)).mpr stored, ret.mpr found⟩

/-- With a husk in it, the only link counts one `bSlot` for two sources, and is
    dropped with the second of them. -/
theorem husk_loses_edge :
    let s := played colliding 3 0 221 (huskCalls ++ [.insert ⟨1, 5⟩])
    let r := mainDel colliding s.1 s.2 ⟨2, 1⟩
    Reached Guard.all colliding 0 221 s.1 s.2 ∧ s.2.query colliding s.1 ⟨1, 5⟩ ≠ 0 ∧
      r.2.1.query colliding r.1 ⟨1, 5⟩ = 0 :=
  ⟨played_reached colliding 3 0 221 (by decide), by decide +kernel, by decide +kernel⟩

end CuckooGraph
