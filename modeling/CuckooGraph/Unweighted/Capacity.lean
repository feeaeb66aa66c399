import CuckooGraph.Graph.Capacity
import CuckooGraph.Slot.Capacity
import CuckooGraph.Unweighted.Exactness

/-! # Denylist capacity

Insertions keep `sblacklist` and `blacklist` within their bounds, unless a merge
pushes what does not fit.
-/

namespace CuckooGraph

open TwoLayer Holemerge

variable {E : Env} {m : Memory Key} {h : Holemerge Key} {e : Edge} {k : Nat}

/-- If `bSlot::insert` merges, what the merge pushes fits into `k` entries. -/
def BSlot.PushFits (E : Env) (k : Nat) (m : Memory Key) (b : BSlot Key) (e : Edge) : Prop :=
  match b.body with
  | .inline _ _ => True
  | .chts slot => b.query E m e = 0 → CuckooGraph.PushFits E k m slot e.dst

theorem BSlot.length_insert {b : BSlot Key} (tidy : b.Tidy) (rooted : b.Rooted E m)
    (owned : ∀ x ∈ m.own b.src, x ≠ 0) (distinct : Distinct (b.items E m)) (same : b.src = e.src)
    (known : e.src ≠ 0) (hd : e.dst ≠ 0) (large : sbl ≤ k) (bound : m.sblacklist.length ≤ k)
    (fits : b.PushFits E k m e) : (b.insert E m e.arc).1.sblacklist.length ≤ k := by
  obtain ⟨src, body⟩ := b
  have same : src = e.src := same
  subst same
  cases body with
  | inline pt cells =>
      have inline : Inline e.src pt cells := tidy
      have used : pt ≠ 0 := fun zero => known (inline.empty.mpr zero)
      simp only [BSlot.insert, used, if_false, Edge.arc, ne_eq, not_true_eq_false]
      rw [length_insertInline (by decide) inline hd distinct]
      exact bound
  | chts slot =>
      have fits : BSlot.query E m ⟨e.src, .chts slot⟩ e = 0 → CuckooGraph.PushFits E k m slot e.dst := fits
      by_cases absent : BSlot.query E m ⟨e.src, .chts slot⟩ e = 0
      · simp only [BSlot.insert, Edge.arc, ne_eq, not_true_eq_false, if_false, absent]
        exact length_insertChts rooted owned hd large bound (fits absent)
      · simp only [BSlot.insert, Edge.arc, ne_eq, not_true_eq_false, if_false, absent]
        exact bound

/-- Whatever is merged for an insertion, what the merge pushes fits into the denylist. -/
structure InsertFits (E : Env) (m : Memory Key) (h : Holemerge Key) (e : Edge) : Prop where
  slots : ∀ loc s, h.locate E e.src = some (loc, s) → s.PushFits E sbl m e
  links : h.locate E e.src = none → LinksFit E m h

section Checks

instance (b : BSlot Key) : Decidable (b.PushFits E k m e) :=
  match b with
  | ⟨_, .inline _ _⟩ => isTrue trivial
  | ⟨src, .chts slot⟩ => inferInstanceAs (Decidable (BSlot.query E m ⟨src, .chts slot⟩ e = 0 →
      CuckooGraph.PushFits E k m slot e.dst))

instance : Decidable (InsertFits E m h e) :=
  decidable_of_iff ((∀ place ∈ h.locate E e.src, place.2.PushFits E sbl m e) ∧
      ((h.locate E e.src).isNone → LinksFit E m h))
    ⟨fun fits => ⟨fun loc s found => fits.1 (loc, s) found, fun none => fits.2 (Option.isNone_iff_eq_none.mpr none)⟩,
      fun fits => ⟨fun place found => fits.slots place.1 place.2 found,
        fun none => fits.links (Option.isNone_iff_eq_none.mp none)⟩⟩

end Checks

theorem Holemerge.length_setAt (loc : Loc) (s : BSlot Key) :
    (h.setAt E loc s).blacklist.length = h.blacklist.length := by
  cases loc with
  | link i flag ha j =>
      cases linked : h.link.get i <;> simp [setAt, linked]
  | denied j => exact List.length_set

/-- An insertion keeps a bound of `sblacklist` if what it merges fits. -/
theorem Whole.length_sblacklist (w : Whole E m h) (known : e.src ≠ 0) (hd : e.dst ≠ 0)
    (large : sbl ≤ k) (bound : m.sblacklist.length ≤ k)
    (fits : ∀ loc s, h.locate E e.src = some (loc, s) → s.PushFits E k m e) :
    (Holemerge.insert E m h e).1.sblacklist.length ≤ k := by
  cases found : h.locate E e.src with
  | none =>
      have absent := locate_none w.grounded.framed found
      have housed := place_housed (m := m) (e := e.arc) (edgeOps_lawful (E := E)) w.grounded.framed known
        hd absent
      obtain ⟨n, memory⟩ := housed.memory
      have unfolded : Holemerge.insert E m h e = place E (edgeOps E) m h e.arc :=
        insertArc_none (e := e.arc) found
      rw [unfolded, memory]
      exact bound
  | some place =>
      obtain ⟨loc, s⟩ := place
      obtain ⟨stands, same⟩ := locate_some w.grounded.framed found
      have hs := stands.mem w.grounded.framed (same ▸ known)
      have unfolded : Holemerge.insert E m h e = (((edgeOps E).touch m s e.arc).1,
          h.setAt E loc ((edgeOps E).touch m s e.arc).2, true) := insertArc_some (e := e.arc) found
      rw [unfolded]
      by_cases absent : s.query E m ⟨e.src, e.dst⟩ = 0
      · have inserted := BSlot.length_insert (w.grounded.framed.slot_tidy hs).1 (w.grounded.rooted s hs)
          (fun x hx => (w.grounded.denied _ (Memory.mem_own.mp hx)).2) (w.exact.distinct s hs) same known
          hd large bound (fits loc s found)
        simpa [SlotOps.touch, edgeOps, Edge.arc, absent] using inserted
      · simpa [SlotOps.touch, edgeOps, Edge.arc, absent] using bound

theorem Whole.length_blacklist (w : Whole E m h) (known : e.src ≠ 0) (hd : e.dst ≠ 0)
    (bound : h.blacklist.length ≤ bbl) (fits : h.locate E e.src = none → LinksFit E m h) :
    (Holemerge.insert E m h e).2.1.blacklist.length ≤ bbl := by
  cases found : h.locate E e.src with
  | none =>
      have absent := locate_none w.grounded.framed found
      have unfolded : Holemerge.insert E m h e = place E (edgeOps E) m h e.arc :=
        insertArc_none (e := e.arc) found
      rw [unfolded]
      exact length_place edgeOps_lawful w.grounded.framed known hd absent bound (fits found)
  | some place =>
      obtain ⟨loc, s⟩ := place
      have unfolded : Holemerge.insert E m h e = (((edgeOps E).touch m s e.arc).1,
          h.setAt E loc ((edgeOps E).touch m s e.arc).2, true) := insertArc_some (e := e.arc) found
      rw [unfolded]
      exact (Holemerge.length_setAt loc _).le.trans bound

/-- If every merge's pushes fit, insertions into a fresh graph keep both bounds. -/
theorem denylists_bounded (E : Env) (s1 s2 : Int) (es : List Edge)
    (known : ∀ e ∈ es, e.src ≠ 0 ∧ e.dst ≠ 0)
    (fits : ∀ before e after, es = before ++ e :: after →
      let s := insertEdges E (Memory.initial, fresh bl1 bl2 s1 s2) before
      InsertFits E s.1 s.2 e) :
    let s := insertEdges E (Memory.initial, fresh bl1 bl2 s1 s2) es
    s.1.sblacklist.length ≤ sbl ∧ s.2.blacklist.length ≤ bbl := by
  induction es using List.reverseRecOn with
  | nil => exact ⟨Nat.zero_le _, Nat.zero_le _⟩
  | append_singleton es e ih =>
      have earlier : ∀ f ∈ es, f.src ≠ 0 ∧ f.dst ≠ 0 := fun f hf => known f (List.mem_append_left _ hf)
      obtain ⟨slots, links⟩ := ih earlier fun before f after split => by
        apply fits before f (after ++ [e])
        rw [split]
        simp
      obtain ⟨hs, hd⟩ := known e (by simp)
      obtain ⟨whole, -⟩ := insertEdges_fresh E default_sizes s1 s2 earlier
      obtain ⟨slotFits, linkFits⟩ := fits es e [] rfl
      simp only [insertEdges, List.foldl_append, List.foldl_cons, List.foldl_nil]
      exact ⟨whole.length_sblacklist hs hd (le_refl sbl) slots slotFits,
        whole.length_blacklist hs hd links linkFits⟩

/-- 89 destinations of one source, and 89 sources. -/
def mergeEdges : List Edge :=
  (List.range 89).map (fun i : Nat => ⟨1, i + 1⟩) ++ (List.range 89).map (fun i : Nat => ⟨i + 1, 7⟩)

/-- The last destination and the last source each make three tables into one of twice the size. -/
theorem denylists_bounded_merged :
    let s := insertEdges spread (Memory.initial, fresh bl1 bl2 0 221) mergeEdges
    s.2.link.toList.map Table.len1 = [8, 4] ∧ s.1.sblacklist.length ≤ sbl ∧ s.2.blacklist.length ≤ bbl := by
  have along : Loop.Along (fun s e => ((insert spread s.1 s.2 e).1, (insert spread s.1 s.2 e).2.1))
      (fun s e => InsertFits spread s.1 s.2 e) (Memory.initial, fresh bl1 bl2 0 221) mergeEdges := by
    decide +kernel
  refine ⟨by decide +kernel, denylists_bounded spread 0 221 mergeEdges (by decide +kernel) fun before e after split => ?_⟩
  rw [split] at along
  exact along.here

section Collide

/-- The `bSlot`s which a query looks at if all keys collide. -/
def reach (h : Holemerge Key) : List (BSlot Key) :=
  (h.tables.flatMap fun (_, t) => (h.home colliding t true 0).2.cells ++ (h.home colliding t false 0).2.cells) ++
    h.blacklist

theorem length_reach (h : Holemerge Key) : (reach h).length ≤ 48 + h.blacklist.length := by
  have few : h.tables.length ≤ 3 := List.length_filterMap_le _ _
  have widths : ∀ tables : List (Nat × BCuckoo Key), (tables.flatMap fun (_, t) =>
      (h.home colliding t true 0).2.cells ++ (h.home colliding t false 0).2.cells).length =
        16 * tables.length := by
    intro tables
    induction tables with
    | nil => rfl
    | cons t ts ih =>
        have eight : bup = 8 := rfl
        simp only [List.flatMap_cons, List.length_append, ih, Bucket.size, List.length_cons]
        omega
  rw [reach, List.length_append, widths]
  omega

theorem query_reach {e : Edge} (found : h.query colliding m e ≠ 0) : e.src ∈ (reach h).map BSlot.src := by
  suffices reached : ∃ s ∈ reach h, s.src = e.src from List.mem_map.mpr reached
  have inBucket : ∀ i t flag, (i, t) ∈ h.tables →
      h.queryLayer colliding (fun s => s.query colliding m e) e.src t flag ≠ 0 →
        ∃ s ∈ reach h, s.src = e.src := by
    intro i t flag ht nonzero
    unfold queryLayer at nonzero
    split at nonzero
    · rename_i s here
      have inside : s ∈ (h.home colliding t true 0).2.cells ++ (h.home colliding t false 0).2.cells := by
        cases flag
        · exact List.mem_append_right _ (List.mem_of_find?_eq_some here)
        · exact List.mem_append_left _ (List.mem_of_find?_eq_some here)
      exact ⟨s, List.mem_append_left _ (List.mem_flatMap.mpr ⟨(i, t), ht, inside⟩), by
        simpa using List.find?_some here⟩
    · contradiction
  unfold query ask at found
  split at found
  · rename_i ans answered
    obtain ⟨⟨i, t⟩, ht, rfl⟩ := List.mem_map.mp (List.mem_of_find?_eq_some answered)
    have nonzero := of_decide_eq_true (List.find?_eq_some_iff_append.mp answered).1
    simp only [queryIn] at nonzero
    split at nonzero
    · exact inBucket i t true ht nonzero
    · exact inBucket i t false ht nonzero
  · split at found
    · rename_i s here
      exact ⟨s, List.mem_append_right _ (List.mem_of_find?_eq_some here), by
        simpa using List.find?_some here⟩
    · contradiction

/-- The edges 1 → 1, .., n → 1. -/
def fan (n : Nat) : List Edge := (List.range n).map fun i : Nat => ⟨i + 1, 1⟩

/-- 48 colliding sources have a place in a table, the others are in `blacklist`. -/
theorem crowded {n : Nat} (found : ∀ e ∈ fan n, h.query colliding m e ≠ 0) :
    n ≤ 48 + h.blacklist.length := by
  have srcs : ((fan n).map Edge.src).Nodup := by
    rw [fan, List.map_map]
    refine List.Nodup.map (fun i j same => ?_) List.nodup_range
    have same : (i : Int) + 1 = j + 1 := same
    omega
  have inside : (fan n).map Edge.src ⊆ (reach h).map BSlot.src := by
    intro src hs
    obtain ⟨e, he, rfl⟩ := List.mem_map.mp hs
    exact query_reach (found e he)
  have count := (List.subperm_of_subset srcs inside).length_le
  have most := length_reach h
  simp only [List.length_map, fan, List.length_range] at count
  omega

theorem fan_known (n : Nat) : ∀ e ∈ fan n, e.src ≠ 0 ∧ e.dst ≠ 0 := by
  intro e he
  obtain ⟨i, -, rfl⟩ := List.mem_map.mp he
  have positive : (i : Int) + 1 ≠ 0 := by omega
  exact ⟨positive, one_ne_zero⟩

theorem fan_found (n : Nat) : ∀ e ∈ fan n,
    (insertEdges colliding (Memory.initial, fresh bl1 bl2 0 221) (fan n)).2.query colliding
      (insertEdges colliding (Memory.initial, fresh bl1 bl2 0 221) (fan n)).1 e ≠ 0 := by
  intro e he
  obtain ⟨hs, hd⟩ := fan_known n e he
  exact ((insertEdges_fresh colliding default_sizes 0 221 (fan_known n)).2 e hs hd).mpr he

theorem blacklist_overflows :
    (∀ e ∈ fan 177, e.src ≠ 0 ∧ e.dst ≠ 0) ∧
      bbl < (insertEdges colliding (Memory.initial, fresh bl1 bl2 0 221) (fan 177)).2.blacklist.length := by
  have count := crowded (fan_found 177)
  exact ⟨fan_known 177, by change 128 < _; omega⟩

end Collide

end CuckooGraph
