import CuckooGraph.Unweighted.Run

/-! # Halving a link

A link of `l` buckets is halved by letting its upper half fall onto the lower
one. That is right for an even `l` only, and the program tests a lower bound on
`len2` but not the parity. Of the sizes with which graphs are made, (4, 2)
doubles for ever into powers of two; the others are halved into odd lengths.
-/

namespace CuckooGraph

open TwoLayer Holemerge

/-- No link of odd length is halved, no pour of links fails, no husk arises in a link. -/
def Guard.halving : Guard :=
  ⟨fun E m h e => LinksEven E m h e ∧ LinksSafe E m h e ∧ NoHusk E m h e, fun _ => True⟩

/-- Each source has one `bSlot`, and every link counts its own. -/
structure Registered (E : Env) (m : Memory Key) (h : Holemerge Key) : Prop where
  grounded : Grounded E m h
  srcs : ((h.slots E).map BSlot.src).Nodup
  tallied : h.Tallied E

/-- What is said of the table that `compress` makes of `c0`, and of the `bSlot`s
    that it pushes. -/
structure Halved (E : Env) (h : Holemerge Key) (c0 : BCuckoo Key) (r : Bulk bup (BSlot Key)) : Prop where
  size : ∀ flag, (r.table.side flag).length = (c0.side flag).length / 2
  kept : r.table.stored (h.slotCells E) + ↑r.left = c0.stored (h.slotCells E)
  once : ((c0.stored (h.slotCells E)).map BSlot.src).Nodup
  placed : r.table.Placed (h.slotCells E)
  num : r.table.num = r.table.cells.countP fun s => !s.isSlotEmpty
  inside : ∀ flag, 0 < (r.table.side flag).length ∧
    ∀ p ∈ Layer.upper (h.slotCells E) (c0.side flag), p.2 < (r.table.side flag).length

variable {E : Env} {m : Memory Key} {h : Holemerge Key} {e : Edge}

section Steps

theorem fresh_registered {l1 l2 : Nat} (sizes : 2 ≤ l2 ∧ l2 ≤ l1) {s1 s2 : Int} :
    Registered E Memory.initial (fresh l1 l2 s1 s2) :=
  ⟨fresh_grounded sizes, fresh_homed.srcs, fresh_homed.tallied⟩

theorem insertArc_registered {d : Arc Key} (known : d.src ≠ 0) (hd : d.item ≠ 0) (r : Registered E m h) :
    Registered E (insertArc E (edgeOps E) m h d).1 (insertArc E (edgeOps E) m h d).2.1 := by
  have grounded := insertArc_grounded edgeOps_faithful r.grounded known hd
  have srcs := r.srcs
  rcases insertArc_cases edgeOps_faithful r.grounded known hd with ⟨s, rest, re⟩ | ⟨absent, housed⟩
  · refine ⟨grounded, ?_, re.tallies r.tallied⟩
    rw [re.split, Multiset.map_cons] at srcs
    rwa [re.whole, Multiset.map_cons, re.touched.src]
  · refine ⟨grounded, ?_, housed.tallies r.tallied⟩
    rw [housed.slots, Multiset.map_cons, Multiset.nodup_cons]
    refine ⟨fun member => ?_, srcs⟩
    obtain ⟨s, hs, same⟩ := Multiset.mem_map.mp member
    exact absent s hs same

theorem mainDel_registered (known : e.src ≠ 0) (hd : e.dst ≠ 0) (safe : Guard.halving.del E m h e)
    (r : Registered E m h) : Registered E (mainDel E m h e).1 (mainDel E m h e).2.1 := by
  obtain ⟨even, links, plain⟩ := safe
  have grounded := mainDel_grounded r.grounded known hd even links
  have srcs := r.srcs
  rcases mainDel_cases r.grounded known hd even with ⟨s, rest, finds, ending⟩ | ⟨-, same⟩
  · rw [finds.split, Multiset.map_cons] at srcs
    rcases ending with rewrites | erases
    · have kept : (s.del E m e).2.1.src = s.src := by
        refine finds.dropped.ending.stays_src fun gone => ?_
        exact rewrites.ret.2 (rewrites.ret.1.trans gone)
      refine ⟨grounded, ?_, rewrites.tallies r.tallied⟩
      rwa [rewrites.whole, Multiset.map_cons, kept]
    · obtain ⟨whole, tallied⟩ := erases.whole links plain r.tallied
      refine ⟨grounded, ?_, tallied⟩
      rw [whole]
      exact (Multiset.nodup_cons.mp srcs).2
  · rwa [same]

theorem redrawEdge_registered (r : Registered E m h) :
    Registered E (redrawEdge E m h).1 (redrawEdge E m h).2 := by
  cases list : m.sblacklist with
  | nil => rwa [redrawEdge_nil list]
  | cons d rest =>
      obtain ⟨known, hd⟩ := head_known list r.grounded
      rw [redrawEdge_eq list]
      exact insertArc_registered known hd ⟨r.grounded.pop list, r.srcs, r.tallied⟩

theorem redrawSlot_registered (r : Registered E m h) :
    Registered E (redrawSlot E m h).1 (redrawSlot E m h).2 := by
  obtain ⟨-, -, tallies, le, -⟩ := redrawSlot_moves (m := m) r.grounded.framed
  exact ⟨redrawSlot_grounded r.grounded, Multiset.nodup_of_le (Multiset.map_le_map le) r.srcs,
    tallies r.tallied⟩

theorem reached_registered {l1 l2 : Nat} (sizes : 2 ≤ l2 ∧ l2 ≤ l1) {s1 s2 : Int}
    (reached : ReachedFrom Guard.halving E l1 l2 s1 s2 m h) : Registered E m h :=
  (reached.inv (fresh_registered sizes)
    (fun _ _ _ known hd r => insertArc_registered known hd r)
    (fun _ _ _ _ known hd safe r => mainDel_registered known hd safe r)
    (fun _ _ r => redrawEdge_registered r)
    (fun _ _ _ r => redrawSlot_registered r)).2

end Steps

/-- What `compress` makes of a link in place, whose layers are of even length. -/
theorem compress_halved {c0 : BCuckoo Key} (tidy : ∀ s ∈ c0.cells, s.Tidy) (placed : c0.Placed (h.slotCells E))
    (counted : c0.Counted (h.slotCells E)) (srcs : ((c0.stored (h.slotCells E)).map BSlot.src).Nodup)
    (even : 2 ∣ c0.len1 ∧ 2 ∣ c0.len2) (wide : 2 ≤ c0.len1 ∧ 2 ≤ c0.len2) (draws : Nat) :
    Halved E h c0 (Table.compress (h.slotCells E) kicktimes E.rand c0 draws) := by
  have ready : c0.Ready := Table.ready_of_len (by omega) (by omega)
  have settled := Table.compress_settled (H := h.slotCells E) slotCells_lawful slotCells_scan_lawful
    (by norm_num) kicktimes E.rand (slotCells_agree tidy) (Table.even_side even) ready draws
  refine ⟨settled.size, settled.stored (slotCells_apart _), srcs, settled.placed placed, ?_, fun flag => ?_⟩
  · exact (Table.counted_iff _).mp (settled.counted (slotCells_apart _) counted)
  · have whole := Table.even_side even flag
    have long : 2 ≤ (c0.side flag).length := by
      cases flag
      · exact wide.2
      · exact wide.1
    rw [settled.size flag]
    refine ⟨by omega, ?_⟩
    rintro ⟨x, i⟩ hp
    obtain ⟨inside, -⟩ := Layer.mem_upper hp
    dsimp only
    omega

/-- Whenever `main_del` halves a link in a run without an odd length, the new
    table holds the `bSlot`s of the old one. -/
theorem mainDel_halves {l1 l2 : Nat} (sizes : 2 ≤ l2 ∧ l2 ≤ l1) {s1 s2 : Int}
    (reached : ReachedFrom Guard.halving E l1 l2 s1 s2 m h) (known : e.src ≠ 0) (hd : e.dst ≠ 0)
    (safe : Guard.halving.del E m h e) {i : Nat} {flag : Bool} {ha j : Nat} {s : BSlot Key}
    (found : h.locate E e.src = some (.link i flag ha j, s)) (ret : (s.del E m e).2.2 < 0)
    {h1 : Holemerge Key} (before : h1 = (h.setAt E (.link i flag ha j) (s.del E m e).2.1).uncount i)
    {c0 : BCuckoo Key} (one : h1.link = ⟨some c0, none, none⟩) (sparse : halves c0) :
    let r := Table.compress (h1.slotCells E) kicktimes E.rand c0 (s.del E m e).1.rands
    (mainDel E m h e).2.1 =
        { h1 with link := ⟨some r.table, none, none⟩, blacklist := h1.blacklist ++ r.left } ∧
      Halved E h1 c0 r := by
  have r := reached_registered sizes reached
  obtain ⟨even, -, plain⟩ := safe
  have framed := r.grounded.framed
  obtain ⟨stands, same⟩ := locate_some framed found
  have used : s.src ≠ 0 := same ▸ known
  have hs := stands.mem framed used
  obtain ⟨rest, split⟩ := Multiset.exists_cons_of_mem hs
  have dropped : BSlot.Dropped E m s e (s.del E m e) :=
    BSlot.del_dropped (framed.slot_tidy hs).1 (r.grounded.rooted s hs) same known hd
  have gone : (s.del E m e).2.2 = -1 := by
    by_contra stays
    rcases dropped.ending.stays_ret stays with one | two <;> omega
  obtain ⟨framed1, -, whole⟩ := emptied framed stands used split dropped.ending gone dropped.turn.tidy
  have even := even i flag ha j s found ret
  rw [← before] at framed1 whole even
  obtain ⟨slots, tallies⟩ := whole (plain i flag ha j s found)
  have state : h1.state = 0 := by
    rcases framed1.cases with ⟨shape, -⟩ | ⟨t, -, state⟩ | ⟨t, t', shape, -⟩ | ⟨t, t', t'', shape, -⟩
    · rw [one] at shape
      cases shape
    · exact state
    · rw [one] at shape
      cases shape
    · rw [one] at shape
      cases shape
  intro r'
  constructor
  · have contracts : (mainDel E m h e).2.1 = (contract E (s.del E m e).1 h1).2 := by
      rw [before]
      simp [mainDel, found, gone]
    rw [contracts]
    simp [contract, state, one, sparse.1, sparse.2.1, sparse.2.2, Three.set, r']
  · have tower := framed1.tower
    have placed := framed1.placed
    have tidy := framed1.tidy
    have tallied := tallies r.tallied
    rw [Tallied] at tallied
    rw [one] at tower placed tidy tallied
    rw [Three.forall_one] at placed tidy tallied
    have wide : 2 ≤ c0.len1 ∧ 2 ≤ c0.len2 := by
      cases tower with
      | one base => exact base.wide
    -- the link holds some of the `bSlot`s of the graph
    have among : c0.stored (h1.slotCells E) ≤ h.slots E := by
      rw [split, ← slots, Holemerge.slots, one, Three.stored_one]
      exact (Multiset.le_add_right _ _).trans (Multiset.le_cons_self _ s)
    exact compress_halved tidy placed tallied
      (Multiset.nodup_of_le (Multiset.map_le_map among) r.srcs) (even c0 one sparse) wide _

section Small

/-- The hash of a key is the key. -/
def direct : Env := ⟨fun k _ => k.toNat, fun _ => 0⟩

/-- A graph made with `(n, n)` buckets, after the edges `n - 1 → 1` and `n → 1`. -/
def couple (n : Nat) : Memory Key × Holemerge Key :=
  let first := insert direct Memory.initial (fresh n n 0 221) ⟨n - 1, 1⟩
  let second := insert direct first.1 first.2.1 ⟨n, 1⟩
  (second.1, second.2.1)

/-- `link[0]` of it without the `bSlot` of `n`. The other one is in the last bucket. -/
def coupleLink (n : Nat) : BCuckoo Key :=
  let H := (couple n).2.slotCells direct
  ⟨(Layer.blank H n).set (n - 1) ((Bucket.empty H).set 0 (BSlot.single ⟨n - 1, 1⟩)), Layer.blank H n, 1⟩

theorem couple_reached {G : Guard} {n : Nat} (more : 2 ≤ n) :
    ReachedFrom G direct n n 0 221 (couple n).1 (couple n).2 := by
  have first : (n : Int) - 1 ≠ 0 := by omega
  have second : (n : Int) ≠ 0 := by omega
  exact .insert ⟨n, 1⟩ (.insert ⟨n - 1, 1⟩ .fresh first one_ne_zero) second one_ne_zero

theorem couple_safe : Guard.halving.del direct (couple 4).1 (couple 4).2 ⟨4, 1⟩ := by
  have place : (couple 4).2.locate direct 4 = some (.link 0 true 0 0, BSlot.single ⟨4, 1⟩) := by decide +kernel
  have after : (((couple 4).2.setAt direct (.link 0 true 0 0)
      ((BSlot.single ⟨4, 1⟩).del direct (couple 4).1 ⟨4, 1⟩).2.1).uncount 0).link =
      ⟨some (coupleLink 4), none, none⟩ := by decide +kernel
  refine ⟨fun i flag ha j s found _ c0 one _ => ?_, fun i flag ha j s found _ c0 c1 c2 three => ?_,
    fun i flag ha j s found => ?_⟩
  all_goals
    rw [place] at found
    cases found
  · rw [after] at one
    cases one
    decide +kernel
  · rw [after] at three
    cases three
  · exact id

theorem mainDel_halves_four :
    let h1 := ((couple 4).2.setAt direct (.link 0 true 0 0) BSlot.empty).uncount 0
    let r := Table.compress (h1.slotCells direct) kicktimes direct.rand (coupleLink 4) (couple 4).1.rands
    Halved direct h1 (coupleLink 4) r := by
  intro h1 r
  have one : h1.link = ⟨some (coupleLink 4), none, none⟩ := by decide +kernel
  have place : (couple 4).2.locate direct 4 = some (.link 0 true 0 0, BSlot.single ⟨4, 1⟩) := by decide +kernel
  exact (mainDel_halves (by decide) (couple_reached (by decide)) (e := ⟨4, 1⟩) (by decide) (by decide)
    couple_safe place (by decide +kernel) rfl one ⟨by decide, by decide +kernel, by decide +kernel⟩).2

/-- The halving of five buckets loses the `bSlot` of 4. -/
theorem odd_halving_loses :
    let s := BSlot.single ⟨5, 1⟩
    let d := s.del direct (couple 5).1 ⟨5, 1⟩
    let h1 := ((couple 5).2.setAt direct (.link 0 true 0 0) d.2.1).uncount 0
    let r := Table.compress (h1.slotCells direct) kicktimes direct.rand (coupleLink 5) d.1.rands
    ReachedFrom Guard.all direct 5 5 0 221 (couple 5).1 (couple 5).2 ∧
      (couple 5).2.locate direct 5 = some (.link 0 true 0 0, s) ∧ d.2.2 = -1 ∧
      h1.link = ⟨some (coupleLink 5), none, none⟩ ∧ halves (coupleLink 5) ∧
      (mainDel direct (couple 5).1 (couple 5).2 ⟨5, 1⟩).2.1.link = ⟨some r.table, none, none⟩ ∧
      (coupleLink 5).stored (h1.slotCells direct) = {BSlot.single ⟨4, 1⟩} ∧
      r.table.stored (h1.slotCells direct) + ↑r.left = 0 := by
  refine ⟨couple_reached (by decide), by decide +kernel, by decide +kernel, by decide +kernel,
    ⟨by decide, by decide +kernel, by decide +kernel⟩, by decide +kernel, by decide +kernel, by decide +kernel⟩

end Small

end CuckooGraph
