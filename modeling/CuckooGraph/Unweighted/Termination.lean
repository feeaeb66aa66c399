import CuckooGraph.Table.Chain
import CuckooGraph.Unweighted.Crammed
import CuckooGraph.Unweighted.Jammed

/-! # post_del ends

Both loops take an element off their list and insert it again, and the insertion
may push another one. A pass makes progress if nothing is kicked out, in the
first loop by a merge, in the second one by its own insertion. A loop ends if all
but finitely many passes make progress.
-/

namespace CuckooGraph

open TwoLayer Holemerge

variable {E : Env} {m : Memory Key} {h : Holemerge Key}

/-- A pass of the first loop does not push anything in a merge. -/
def EdgeSettles (E : Env) (s : Memory Key × Holemerge Key) : Prop :=
  ∀ d rest, s.1.sblacklist = d :: rest → ∀ loc b, s.2.locate E d.src = some (loc, b) →
    b.PushFits E rest.length (s.1.relist rest) ⟨d.src, d.item⟩

instance (s : Memory Key × Holemerge Key) : Decidable (EdgeSettles E s) :=
  decidable_of_iff (∀ d ∈ s.1.sblacklist.head?, ∀ place ∈ s.2.locate E d.src,
      place.2.PushFits E s.1.sblacklist.tail.length (s.1.relist s.1.sblacklist.tail) ⟨d.src, d.item⟩) <| by
    cases list : s.1.sblacklist with
    | nil => simp [EdgeSettles, list]
    | cons d rest => simp [EdgeSettles, list, Prod.forall]

/-- In a pass of the second loop the `bSlot`, or what it kicks out, comes to a free cell. -/
def SlotSettles (E : Env) (s : Memory Key × Holemerge Key) : Prop :=
  ∀ b rest, s.2.blacklist = b :: rest → ∀ i t, s.2.sparseLink = some (i, t) →
    t.Admits (s.2.slotCells E) kicktimes E.rand s.1.rands b

theorem redrawEdge_shorter (w : Whole E m h) (long : edgesOver (m, h) = true)
    (settles : EdgeSettles E (m, h)) :
    (redrawEdge E m h).1.sblacklist.length < m.sblacklist.length := by
  have long : sbl < m.sblacklist.length := by simpa [edgesOver] using long
  cases list : m.sblacklist with
  | nil => simp [list] at long
  | cons d rest =>
      rw [list, List.length_cons] at long
      obtain ⟨known, hd⟩ := head_known list w.grounded
      have popped : Whole E (m.relist rest) h :=
        ⟨w.grounded.pop list, w.homed.pop list, w.exact.pop list w.grounded w.homed⟩
      have shorter := popped.length_sblacklist (e := ⟨d.src, d.item⟩) known hd (Nat.le_of_lt_succ long)
        (le_refl rest.length) (settles d rest list)
      rw [redrawEdge_eq list, List.length_cons]
      exact Nat.lt_succ_of_le shorter

/-- A pass of the second loop whose chain comes to a free cell makes `blacklist` shorter. -/
theorem redrawSlot_shorter (long : slotsOver (m, h) = true) (fits : Fits (m, h)) (settles : SlotSettles E (m, h)) :
    (redrawSlot E m h).2.blacklist.length < h.blacklist.length := by
  have long : bbl < h.blacklist.length := by simpa [slotsOver] using long
  cases list : h.blacklist with
  | nil => simp [list] at long
  | cons b rest =>
      obtain ⟨⟨i, t⟩, found⟩ := Option.ne_none_iff_exists'.mp fits
      have settled := (Table.insert_left_iff (fun _ _ => rfl) kicktimes E.rand t m.rands b).mpr
        (settles b rest list i t found)
      simp only [redrawSlot, list, found]
      rw [settled]
      simp

/-- A pass which finds no link loses its `bSlot`. -/
theorem redrawSlot_loses (long : slotsOver (m, h) = true) (lost : ¬ Fits (m, h)) :
    (redrawSlot E m h).2.slots E < h.slots E := by
  have long : bbl < h.blacklist.length := by simpa [slotsOver] using long
  cases list : h.blacklist with
  | nil => simp [list] at long
  | cons b rest =>
      have nowhere : h.sparseLink = none := not_not.mp lost
      have whole : h.slots E = b ::ₘ ({ h with blacklist := rest } : Holemerge Key).slots E := by
        change h.link.stored _ + _ = b ::ₘ (h.link.stored _ + _)
        rw [list, ← Multiset.cons_coe, Multiset.add_cons]
        rfl
      simp only [redrawSlot, list, nowhere]
      rw [whole]
      exact Multiset.lt_cons_self _ _

/-- What `post_del` keeps, passing through `s` on its way from `s0`. -/
structure Redrawn (E : Env) (s0 s : Memory Key × Holemerge Key) : Prop where
  whole : Whole E s.1 s.2
  entries : ∀ src, CuckooGraph.entries E s.1 s.2 src = CuckooGraph.entries E s0.1 s0.2 src
  srcs : (s.2.slots E).map BSlot.src = (s0.2.slots E).map BSlot.src

theorem Redrawn.edge {s0 s : Memory Key × Holemerge Key} (r : Redrawn E s0 s) :
    Redrawn E s0 (redrawEdge E s.1 s.2) :=
  ⟨r.whole.redrawEdge, fun src =>
    (redrawEdge_entries r.whole.grounded r.whole.homed r.whole.exact src).trans (r.entries src),
    (redrawEdge_srcs r.whole.grounded r.whole.homed).trans r.srcs⟩

theorem Redrawn.slot {s0 s : Memory Key × Holemerge Key} (r : Redrawn E s0 s) (fits : Fits s) :
    Redrawn E s0 (redrawSlot E s.1 s.2) :=
  ⟨r.whole.redrawSlot fits, fun src =>
    (redrawSlot_entries r.whole.grounded fits src).trans (r.entries src),
    (congrArg _ ((redrawSlot_moves r.whole.grounded.framed).2.2.2.2 fits)).trans r.srcs⟩

section Loops

variable {s : Memory Key × Holemerge Key}

theorem drainEdges_ends (w : Whole E s.1 s.2)
    (settles : Loop.Finally edgesOver (fun s => redrawEdge E s.1 s.2) (EdgeSettles E) s) :
    ∃ fuel s', drainEdges E fuel s.1 s.2 = some s' ∧ Redrawn E s s' ∧ s'.1.sblacklist.length ≤ sbl := by
  have free : ∀ fuel, Loop.Each edgesOver (fun s => redrawEdge E s.1 s.2) (fun _ => True) fuel s :=
    fun fuel => Loop.each_of_all (fun _ => trivial) fuel s
  obtain ⟨fuel, s', done, redrawn⟩ := Loop.run_ends_finally (I := Redrawn E s) (fun s => s.1.sblacklist.length)
    (fun _ _ _ r => r.edge) (fun _ long _ settles r => redrawEdge_shorter r.whole long settles) free settles
    ⟨w, fun _ => rfl, rfl⟩
  exact ⟨fuel, s', done, redrawn, by simpa [edgesOver] using Loop.run_exit done⟩

theorem drainEdges_redrawn {s' : Memory Key × Holemerge Key} {fuel : Nat} (w : Whole E m h)
    (done : drainEdges E fuel m h = some s') : Redrawn E (m, h) s' :=
  Loop.run_inv (fun _ _ _ r => Redrawn.edge r) (Loop.each_of_all (fun _ => trivial) fuel _) ⟨w, fun _ => rfl, rfl⟩ done

theorem drainSlots_ends (w : Whole E s.1 s.2) (short : s.1.sblacklist.length ≤ sbl)
    (fits : ∀ fuel, Loop.Each slotsOver (fun s => redrawSlot E s.1 s.2) Fits fuel s)
    (settles : Loop.Finally slotsOver (fun s => redrawSlot E s.1 s.2) (SlotSettles E) s) :
    ∃ fuel s', drainSlots E fuel s.1 s.2 = some s' ∧ Redrawn E s s' ∧ s'.1.sblacklist.length ≤ sbl ∧
      s'.2.blacklist.length ≤ bbl := by
  have keep : ∀ t, slotsOver t = true → Fits t → Redrawn E s t ∧ t.1.sblacklist.length ≤ sbl →
      Redrawn E s (redrawSlot E t.1 t.2) ∧ (redrawSlot E t.1 t.2).1.sblacklist.length ≤ sbl := by
    rintro t - fits ⟨r, short⟩
    obtain ⟨⟨n, memory⟩, -⟩ := redrawSlot_moves (m := t.1) r.whole.grounded.framed
    refine ⟨r.slot fits, ?_⟩
    rw [memory]
    exact short
  obtain ⟨fuel, s', done, redrawn, short'⟩ := Loop.run_ends_finally (fun s => s.2.blacklist.length) keep
    (fun _ long fits settles _ => redrawSlot_shorter long fits settles) fits settles
    ⟨⟨w, fun _ => rfl, rfl⟩, short⟩
  exact ⟨fuel, s', done, redrawn, short', by simpa [slotsOver] using Loop.run_exit done⟩

/-- If no source is missing in the end, every pass of the second loop has found a link. -/
theorem drainSlots_fits {s' : Memory Key × Holemerge Key} {fuel : Nat} (g : Grounded E s.1 s.2)
    (done : drainSlots E fuel s.1 s.2 = some s')
    (srcs : (s'.2.slots E).map BSlot.src = (s.2.slots E).map BSlot.src) (passes : Nat) :
    Loop.Each slotsOver (fun s => redrawSlot E s.1 s.2) Fits passes s := by
  have count := congrArg Multiset.card srcs
  rw [Multiset.card_map, Multiset.card_map] at count
  refine Loop.each_of_steady (I := fun s => Grounded E s.1 s.2) (fun s => (s.2.slots E).card)
    (fun _ _ g => redrawSlot_grounded g) (fun s _ g => ?_) (fun s long _ lost => ?_) g done count.ge passes
  · obtain ⟨-, -, -, le, -⟩ := redrawSlot_moves (m := s.1) g.framed
    exact Multiset.card_le_card le
  · exact Multiset.card_lt_card (redrawSlot_loses long lost)

end Loops

/-- `del` comes to an end with either denylist within its bound. `post_del` has
    changed no answer, and lost no `bSlot` and put none in twice. -/
def Completes (E : Env) (m : Memory Key) (h : Holemerge Key) (e : Edge) : Prop :=
  let s := ((mainDel E m h e).1, (mainDel E m h e).2.1)
  ∃ fuel m' h', del E fuel m h e = some (m', h', (mainDel E m h e).2.2) ∧
    m'.sblacklist.length ≤ sbl ∧ h'.blacklist.length ≤ bbl ∧
    (∀ f : Edge, f.src ≠ 0 → f.dst ≠ 0 → (h'.query E m' f ≠ 0 ↔ s.2.query E s.1 f ≠ 0)) ∧
    (h'.slots E).map BSlot.src = (s.2.slots E).map BSlot.src

/-- The two ways in which `post_del` goes wrong from `s` on do not occur: passes without
    progress for ever, and a pass of the second loop which finds no link with room. -/
structure Settles (E : Env) (s : Memory Key × Holemerge Key) : Prop where
  edges : Loop.Finally edgesOver (fun s => redrawEdge E s.1 s.2) (EdgeSettles E) s
  fits : ∀ fuel s', drainEdges E fuel s.1 s.2 = some s' →
    ∀ passes, Loop.Each slotsOver (fun s => redrawSlot E s.1 s.2) Fits passes s'
  slots : ∀ fuel s', drainEdges E fuel s.1 s.2 = some s' →
    Loop.Finally slotsOver (fun s => redrawSlot E s.1 s.2) (SlotSettles E) s'

/-- `del` is `main_del` and the two loops. -/
theorem del_eq_some {fuel : Nat} {e : Edge} {m' : Memory Key} {h' : Holemerge Key} {ret : Int} :
    del E fuel m h e = some (m', h', ret) ↔ ∃ s, drainEdges E fuel (mainDel E m h e).1 (mainDel E m h e).2.1 = some s ∧
      drainSlots E fuel s.1 s.2 = some (m', h') ∧ (mainDel E m h e).2.2 = ret := by
  simp only [del, postDel]
  cases drainEdges E fuel (mainDel E m h e).1 (mainDel E m h e).2.1 with
  | none => simp
  | some s =>
      simp only [Option.map_eq_some_iff, Option.some.injEq, exists_eq_left', Prod.mk.injEq, Prod.exists]
      constructor
      · rintro ⟨a, b, done, rfl, rfl, same⟩
        exact ⟨done, same⟩
      · rintro ⟨done, same⟩
        exact ⟨m', h', done, rfl, rfl, same⟩

section Completes

variable {s1 s2 : Int} {e : Edge}

theorem Settles.completes (w : Whole E (mainDel E m h e).1 (mainDel E m h e).2.1)
    (settles : Settles E ((mainDel E m h e).1, (mainDel E m h e).2.1)) : Completes E m h e := by
  obtain ⟨fuel1, mid, drained, first, short⟩ := drainEdges_ends w settles.edges
  obtain ⟨fuel2, last, ended, second, short', short''⟩ :=
    drainSlots_ends first.whole short (settles.fits fuel1 mid drained) (settles.slots fuel1 mid drained)
  refine ⟨max fuel1 fuel2, last.1, last.2, ?_, short', short'', fun f known hf => ?_, second.srcs.trans first.srcs⟩
  · exact del_eq_some.mpr ⟨mid, Loop.run_more drained (le_max_left ..), Loop.run_more ended (le_max_right ..), rfl⟩
  · rw [second.whole.query_iff known hf, w.query_iff known hf, second.entries, first.entries]

theorem Completes.settles (w : Whole E (mainDel E m h e).1 (mainDel E m h e).2.1) (completes : Completes E m h e) :
    Settles E ((mainDel E m h e).1, (mainDel E m h e).2.1) := by
  obtain ⟨fuel, m', h', done, -, -, -, srcs⟩ := completes
  obtain ⟨mid, drained, ended, -⟩ := del_eq_some.mp done
  have first := drainEdges_redrawn w drained
  -- whatever fuel it takes, the first loop ends in the same state
  have only : ∀ fuel' s', drainEdges E fuel' (mainDel E m h e).1 (mainDel E m h e).2.1 = some s' → s' = mid := by
    intro fuel' s' done'
    have one := Loop.run_more drained (le_max_left fuel fuel')
    have two := Loop.run_more done' (le_max_right fuel fuel')
    exact Option.some.inj (two.symm.trans one)
  refine ⟨Loop.finally_of_run drained, fun fuel' s' done' => ?_, fun fuel' s' done' => ?_⟩
  · rw [only fuel' s' done']
    exact drainSlots_fits first.whole.grounded ended (srcs.trans first.srcs.symm)
  · rw [only fuel' s' done']
    exact Loop.finally_of_run ended

end Completes

/-- One entry too many takes one pass, and few sources take none. -/
theorem settles_of_excess (w : Whole E m h) (excess : m.sblacklist.length = sbl + 1) (settles : EdgeSettles E (m, h))
    (few : (h.slots E).card ≤ bbl) : Settles E (m, h) := by
  have longer : sbl < m.sblacklist.length := by omega
  have long : edgesOver (m, h) = true := decide_eq_true longer
  have done : edgesOver (redrawEdge E m h) = false := by
    have shorter := redrawEdge_shorter w long settles
    exact decide_eq_false (by omega)
  have short : ∀ fuel s', drainEdges E fuel m h = some s' → slotsOver s' = false := by
    intro fuel s' drained
    have count : (s'.2.slots E).card = (h.slots E).card := by
      simpa only [Multiset.card_map] using congrArg Multiset.card (drainEdges_redrawn w drained).srcs
    rw [slots, Multiset.card_add, Multiset.coe_card] at count
    exact decide_eq_false (by omega)
  refine ⟨⟨1, fun fuel => ?_⟩, fun fuel s' drained passes => ?_, fun fuel s' drained => ⟨0, fun passes => ?_⟩⟩
  · rw [Loop.after, if_pos long]
    exact Loop.each_of_stop done fuel
  · exact Loop.each_of_stop (short fuel s' drained) passes
  · exact Loop.each_of_stop (short fuel s' drained) passes

/-- So does one `bSlot` too many which comes to a free cell. -/
theorem settles_of_room (short : m.sblacklist.length ≤ sbl) (fits : Fits (m, h))
    (done : slotsOver (redrawSlot E m h) = false) : Settles E (m, h) := by
  have stop : edgesOver (m, h) = false := decide_eq_false (Nat.not_lt.mpr short)
  have only : ∀ fuel s', drainEdges E fuel m h = some s' → (m, h) = s' :=
    fun fuel s' drained => Option.some.inj ((Loop.run_of_stop stop fuel).symm.trans drained)
  refine ⟨⟨0, fun passes => Loop.each_of_stop stop passes⟩, fun fuel s' drained passes => ?_, fun fuel s' drained => ?_⟩
  · obtain rfl := only fuel s' drained
    cases passes with
    | zero => trivial
    | succ passes => exact fun _ => ⟨fits, Loop.each_of_stop done passes⟩
  · obtain rfl := only fuel s' drained
    refine ⟨1, fun passes => ?_⟩
    cases long : slotsOver (m, h) with
    | true =>
        rw [Loop.after, if_pos long]
        exact Loop.each_of_stop done passes
    | false =>
        rw [Loop.after, if_neg (by simp [long])]
        exact Loop.each_of_stop long passes

/-- `sblacklist` is full of entries of source 1. So source 2 gets two S-CHTs. -/
def overfullEdges : List Edge :=
  packEdges ++ jamEdges sbl ++ (List.range 18).map fun i : Nat => ⟨2, (i + 1 : Nat)⟩

def overfull : Memory Key × Holemerge Key :=
  insertEdges colliding (jammed sbl, holding) ((List.range 18).map fun i : Nat => ⟨2, (i + 1 : Nat)⟩)

theorem overfull_eq : insertEdges colliding (Memory.initial, fresh bl1 bl2 0 221) overfullEdges = overfull := by
  rw [overfullEdges, insertEdges_append, insertEdges_append, jammed_start, jammed_insertEdges (Nat.le_refl sbl), overfull]

/-- At most 48 of 177 colliding sources are in tables. -/
theorem fan_stuck {s : Memory Key × Holemerge Key} (found : ∀ e ∈ fan 177, s.2.query colliding s.1 e ≠ 0)
    (missing : s.2.locate colliding 1000 = none) : ¬ Completes colliding s.1 s.2 ⟨1000, 1⟩ := by
  rintro ⟨fuel, m', h', -, -, short, same, -⟩
  have untouched : mainDel colliding s.1 s.2 ⟨1000, 1⟩ = (s.1, s.2, 0) := by simp [mainDel, missing]
  rw [untouched] at same
  have count : 177 ≤ 48 + h'.blacklist.length := by
    refine crowded (m := m') fun e he => ?_
    obtain ⟨hs, hd⟩ := fan_known 177 e he
    exact (same e hs hd).mpr (found e he)
  have short : h'.blacklist.length ≤ 128 := short
  omega

theorem fan_missing (n : Nat) : n < 1000 →
    (insertEdges colliding (Memory.initial, fresh bl1 bl2 0 221) (fan n)).2.locate colliding 1000 = none := by
  intro few
  apply locate_insertEdges colliding 0 221 (fan_known n) 1000 (by decide)
  intro e he equal
  obtain ⟨i, hi, rfl⟩ := List.mem_map.mp he
  have equal : (1000 : Int) = i + 1 := equal
  rw [List.mem_range] at hi
  omega

theorem fan_reached (n : Nat) : Reached Guard.all colliding 0 221
    (insertEdges colliding (Memory.initial, fresh bl1 bl2 0 221) (fan n)).1
    (insertEdges colliding (Memory.initial, fresh bl1 bl2 0 221) (fan n)).2 :=
  insertEdges_reached .fresh (fan_known n)

end CuckooGraph
