import CuckooGraph.Table.Jam
import CuckooGraph.Unweighted.Capacity

/-! # Sources in a jammed link

44 sources fill `link[0]`, so the next ones go to `link[1]`, where they all collide.
16 of them have a place there, and each of the next 128 drives out the one which
came two insertions before it.
-/

namespace CuckooGraph

open TwoLayer Holemerge

/-- The sources below 0 and from 1000 on collide in a link of half the size. In
    `link[0]` source 1000 has another bucket than the others. -/
def forked : Env where
  mmhash k seed :=
    if k < 0 ∨ 1000 < k then (if seed = 0 then 2 else 1)
    else if k = 1000 then 0
    else if seed = 0 then k.toNat
    else k.toNat / 4
  rand _ := 0

/-- The `bSlot` of a source with one edge. -/
def lone (src : Key) : BSlot Key := BSlot.single ⟨src, 1⟩

def loneEdges (srcs : List Key) : List Edge := srcs.map fun src => ⟨src, 1⟩

/-- The sources from 1000 on. -/
def late (n : Nat) : Key := n + 1000

theorem late_apart {a b : Nat} (other : a ≠ b) : late a ≠ late b := by
  intro same
  exact other (Int.ofNat_inj.mp (add_right_cancel same))

theorem late_ge (n : Nat) : 1000 ≤ late n := by
  rw [late]
  exact Int.le_add_of_nonneg_left (Int.natCast_nonneg n)

theorem late_ne_zero (n : Nat) : late n ≠ 0 := (lt_of_lt_of_le (by decide) (late_ge n)).ne'

/-- The sources which stay where they are. -/
def penned : Jam bup (BSlot Key) where
  tail1 := [-1, -2, -3, -4, -5, -6, -7].map lone
  tail2 := [-8, -9, -10, -11, -12, -13, -14].map lone
  size1 := rfl
  size2 := rfl
  rest1 := Layer.blank ((fresh bl1 bl2 0 221 : Holemerge Key).slotCells forked) 1
  rest2 := []
  num := 16

/-- The late sources go round. -/
theorem penned_movers : penned.Movers ((fresh bl1 bl2 0 221 : Holemerge Key).slotCells forked)
    fun b => 1000 ≤ b.src ∧ b.isSlotEmpty = false where
  home1 b hb := by
    rcases eq_or_lt_of_le hb.1 with same | large
    · simp [slotCells, forked, seed, fresh, penned, ← same]
    · simp [slotCells, forked, seed, fresh, penned, large]
  home2 _ _ := Nat.mod_one _
  full := by decide
  used _ hb := hb.2
  apart _ _ _ _ := rfl
  other _ _ _ _ _ := rfl

/-- `link[0]`. Its second layer has four free cells. -/
def wide : BCuckoo Key where
  layer1 := (List.range 4).map fun i : Nat =>
    ⟨(List.range 8).map fun j : Nat => lone (4 * (j + 1) + i : Nat), by simp⟩
  layer2 := [⟨[40, 41, 42, 43].map lone ++ List.replicate 4 BSlot.empty, rfl⟩,
    ⟨[36, 37, 38, 39, 44, 45, 46, 47].map lone, rfl⟩]
  num := 44

/-- `link[1]`, with two late sources in the first cells. -/
def pen (k : Nat) : BCuckoo Key := penned.table (lone (late (k + 1))) (lone (late k))

/-- After `k` sources too many. -/
def crammed (k : Nat) : Memory Key × Holemerge Key :=
  ({ Memory.initial with rands := 500 * k },
    { (fresh bl1 bl2 0 221 : Holemerge Key) with
      state := 1
      link := ⟨some wide, some (pen k), none⟩
      blacklist := (List.range k).map fun i => lone (late i) })

/-- The sources of `link[0]`, then the first 16 of `link[1]`. -/
def penEdges : List Edge :=
  loneEdges ((List.range 44).map fun i : Nat => ((i + 4 : Nat) : Key)) ++
    loneEdges [1001, -1, -2, -3, -4, -5, -6, -7, 1000, -8, -9, -10, -11, -12, -13, -14]

/-- The next `k` sources. -/
def lateEdges (k : Nat) : List Edge := loneEdges ((List.range k).map fun i => late (i + 2))

set_option maxRecDepth 100000 in
theorem crammed_start : insertEdges forked (Memory.initial, fresh bl1 bl2 0 221) penEdges = crammed 0 := rfl

section Next

variable (k : Nat)

theorem crammed_known : ∀ e ∈ penEdges ++ lateEdges k, e.src ≠ 0 ∧ e.dst ≠ 0 := by
  intro e he
  rcases List.mem_append.mp he with he | he
  · have all : ∀ e ∈ penEdges, e.src ≠ 0 ∧ e.dst ≠ 0 := by decide
    exact all e he
  · obtain ⟨src, hs, rfl⟩ := List.mem_map.mp he
    obtain ⟨i, -, rfl⟩ := List.mem_map.mp hs
    exact ⟨late_ne_zero (i + 2), one_ne_zero⟩

/-- The next source is a new one. -/
theorem crammed_absent : ∀ e ∈ penEdges ++ lateEdges k, late (k + 2) ≠ e.src := by
  intro e he
  rcases List.mem_append.mp he with he | he
  · have low : ∀ e ∈ penEdges, e.src < 1002 := by decide
    have large : 1002 ≤ late (k + 2) := by
      simp only [late]
      push_cast
      linarith [Int.natCast_nonneg k]
    exact (lt_of_lt_of_le (low e he) large).ne'
  · obtain ⟨src, hs, rfl⟩ := List.mem_map.mp he
    obtain ⟨i, hi, rfl⟩ := List.mem_map.mp hs
    rw [List.mem_range] at hi
    exact late_apart (by omega)

theorem pen_insert : (pen k).insert ((crammed k).2.slotCells forked) kicktimes forked.rand (500 * k)
    (lone (late (k + 2))) = ⟨pen (k + 1), 500 * k + 500, some (lone (late k))⟩ := by
  have mover : ∀ n : Nat, 1000 ≤ (lone (late n)).src ∧ (lone (late n)).isSlotEmpty = false :=
    fun n => ⟨late_ge n, rfl⟩
  have apart : ∀ a b : Nat, a ≠ b → lone (late a) ≠ lone (late b) :=
    fun a b other same => late_apart other (congrArg BSlot.src same)
  exact Jam.insert_jammed penned_movers (fun _ => rfl) (mover (k + 1)) (mover k) (mover (k + 2)) (apart _ _ (by omega))
    (apart _ _ (by omega)) (apart _ _ (by omega)) 83 (500 * k)

variable {k} (few : k < bbl)

include few

theorem crammed_roomy : (crammed k).2.roomyLink = some (1, pen k) := by
  have length : (crammed k).2.blacklist.length = k := by simp [crammed]
  have room : hasRoom (pen k) = true := by
    have less : (160 : Int) < 216 := by decide
    exact decide_eq_true less
  have linked : (crammed k).2.link.get 1 = some (pen k) := rfl
  have links : [2, 1, 0].filter (fun i : Nat => (i : Int) ≤ (crammed k).2.state) = [1, 0] := rfl
  rw [roomyLink, links, List.findSome?]
  simp [linked, room, length, few]

/-- The next source drives out the one which came two insertions before it. -/
theorem crammed_insert
    (before : insertEdges forked (Memory.initial, fresh bl1 bl2 0 221) (penEdges ++ lateEdges k) = crammed k) :
    Holemerge.insert forked (crammed k).1 (crammed k).2 ⟨late (k + 2), 1⟩ =
      ((crammed (k + 1)).1, (crammed (k + 1)).2, true) := by
  have whole := (insertEdges_fresh forked default_sizes 0 221 (crammed_known k)).1
  have missing := locate_insertEdges forked 0 221 (crammed_known k) (late (k + 2)) (late_ne_zero _) (crammed_absent k)
  rw [before] at whole missing
  have framed := whole.grounded.framed
  have linked : pen k ∈ (crammed k).2.link.toList := List.mem_cons_of_mem _ List.mem_cons_self
  have absent : ∀ s ∈ (pen k).cells, s.src ≠ late (k + 2) :=
    framed.absent_cells (e := (⟨late (k + 2), 1⟩ : Arc Key)) (late_ne_zero _) (locate_none framed missing) linked
  have moved : insertEdge forked (edgeOps forked) (crammed k).2 (crammed k).1 (pen k) ⟨late (k + 2), 1⟩ =
      ({ (crammed k).1 with rands := 500 * k + 500 }, pen (k + 1), some (lone (late k))) := by
    have kicks : (pen k).insert ((crammed k).2.slotCells forked) kicktimes forked.rand (crammed k).1.rands
        (BSlot.single ⟨late (k + 2), 1⟩) = _ := pen_insert k
    rw [insertEdge_eq edgeOps_lawful (framed.ready linked) (fun s hs => (framed.tidy _ linked s hs).eq_empty) absent,
      kicks]
  have state : (crammed k).2.state = 1 := rfl
  have placed : insertArc forked (edgeOps forked) (crammed k).1 (crammed k).2 ⟨late (k + 2), 1⟩ =
      insertInto forked (edgeOps forked) (crammed k).1 (crammed k).2 1 (pen k) ⟨late (k + 2), 1⟩ := by
    rw [insertArc_none (e := (⟨late (k + 2), 1⟩ : Arc Key)) missing]
    simp only [place, state, crammed_roomy few]
    rfl
  have arc : Edge.arc ⟨late (k + 2), 1⟩ = ⟨late (k + 2), 1⟩ := rfl
  rw [Holemerge.insert, arc, placed, insertInto, moved]
  simp only [crammed, List.range_succ, List.map_append, List.map_singleton]
  rfl

end Next

theorem crammed_insertEdges {k : Nat} (few : k ≤ bbl) :
    insertEdges forked (Memory.initial, fresh bl1 bl2 0 221) (penEdges ++ lateEdges k) = crammed k := by
  induction k with
  | zero => exact crammed_start
  | succ k ih =>
      have before := ih (Nat.le_of_lt few)
      have more : penEdges ++ lateEdges (k + 1) = penEdges ++ lateEdges k ++ [⟨late (k + 2), 1⟩] := by
        simp [lateEdges, loneEdges, List.range_succ]
      rw [more, insertEdges_append, before]
      simp only [insertEdges, List.foldl_cons, List.foldl_nil, crammed_insert (Nat.lt_of_succ_le few) before]

/-- All sources of `link[0]` go, but for the eight of one bucket, source 10 and the last one. -/
def vacateCalls : List Call :=
  ((List.range 43).filter fun i => ¬ (i % 4 = 1 ∧ i < 32 ∨ i = 6)).map fun i : Nat => .del ⟨(i + 4 : Nat), 1⟩

/-- What is left of the graph whose `blacklist` was full. -/
def vacated : Memory Key × Holemerge Key :=
  let s := insertEdges forked (Memory.initial, fresh bl1 bl2 0 221) (penEdges ++ lateEdges bbl)
  (play forked 1 s vacateCalls).getD s

theorem vacated_eq : vacated = (play forked 1 (crammed bbl) vacateCalls).getD (crammed bbl) := by
  rw [vacated, crammed_insertEdges (Nat.le_refl bbl)]

theorem vacated_reached : Reached Guard.counts forked 0 221 vacated.1 vacated.2 := by
  have before : Reached Guard.counts forked 0 221 (crammed bbl).1 (crammed bbl).2 := by
    rw [← crammed_insertEdges (Nat.le_refl bbl)]
    exact insertEdges_reached .fresh (crammed_known bbl)
  have heeds : Heeds Guard.counts forked 1 (crammed bbl) vacateCalls := by decide +kernel
  rw [vacated_eq]
  cases done : play forked 1 (crammed bbl) vacateCalls with
  | none => exact before
  | some s => exact play_reached heeds before done

end CuckooGraph
