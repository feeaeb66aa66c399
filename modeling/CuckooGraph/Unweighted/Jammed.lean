import CuckooGraph.Table.Jam
import CuckooGraph.Unweighted.Capacity

/-! # A source in one jammed S-CHT

If all keys collide, the first 16 destinations of a source fill the cells which can
be reached. Each of the next 128 drives out the one which came two insertions
before it.
-/

namespace CuckooGraph

open TwoLayer Holemerge

/-- The destinations which stay where they are. -/
def packed : Jam bup Key where
  tail1 := [-1, -2, -3, -4, -5, -6, -7]
  tail2 := [-8, -9, -10, -11, -12, -13, -14]
  size1 := rfl
  size2 := rfl
  rest1 := Layer.blank (chtCells colliding) 3
  rest2 := Layer.blank (chtCells colliding) 1
  num := 16

/-- The positive destinations go round. -/
theorem packed_movers : packed.Movers (chtCells colliding) fun x : Key => 0 < x where
  home1 _ _ := rfl
  home2 _ _ := rfl
  full := by decide
  used x pos := by
    have other : x ≠ 0 := ne_of_gt pos
    simpa [chtCells, Entry.dst] using other
  apart x pos c hc := by
    have low : ∀ c ∈ packed.tail1 ++ packed.tail2, c < 0 := by decide
    have other : x ≠ c := ne_of_gt ((low c hc).trans pos)
    simpa [chtCells, Entry.dst, Entry.checked] using other
  other x y _ _ other := by simpa [chtCells, Entry.dst, Entry.checked] using other

/-- Source 1 with its S-CHT. -/
def holder : BSlot Key := ⟨1, .chts ⟨some 0, none, none⟩⟩

/-- The graph, whose only `bSlot` stays the same. -/
def holding : Holemerge Key :=
  let H := (fresh bl1 bl2 0 221 : Holemerge Key).slotCells colliding
  { (fresh bl1 bl2 0 221 : Holemerge Key) with
    state := 0
    link := ⟨some ⟨⟨holder :: List.replicate 7 BSlot.empty, rfl⟩ :: Layer.blank H 3, Layer.blank H 2, 1⟩, none, none⟩ }

/-- After `k` destinations too many. -/
def jammed (k : Nat) : Memory Key where
  heap := ⟨[some (packed.table (k + 2 : Nat) (k + 1 : Nat))]⟩
  sblacklist := (List.range k).map fun i : Nat => ⟨1, (i + 1 : Nat)⟩
  rands := 500 * k
  fault := false

/-- The first 16 destinations. -/
def packEdges : List Edge :=
  ([2, -1, -2, -3, -4, -5, -6, -7, 1, -8, -9, -10, -11, -12, -13, -14] : List Key).map (Edge.mk 1)

/-- The next `k` destinations. -/
def jamEdges (k : Nat) : List Edge := (List.range k).map fun i : Nat => ⟨1, (i + 3 : Nat)⟩

set_option maxRecDepth 100000 in
theorem jammed_start :
    insertEdges colliding (Memory.initial, fresh bl1 bl2 0 221) packEdges = (jammed 0, holding) := rfl

section Next

variable (k : Nat)

theorem jammed_length : (jammed k).sblacklist.length = k := by rw [jammed, List.length_map, List.length_range]

/-- Neither the S-CHT nor `sblacklist` has the next destination. -/
theorem jammed_query : holder.query colliding (jammed k) ⟨1, (k + 3 : Nat)⟩ = 0 := by
  have row : ∀ (first : Nat) (tail : List Key), first ≠ k + 3 → (∀ c ∈ tail, c < 0) →
      (((first : Key) :: tail).any fun c => c == ((k + 3 : Nat) : Key)) = false := by
    intro first tail other low
    rw [List.any_eq_false]
    intro c hc
    rw [beq_iff_eq]
    rcases List.mem_cons.mp hc with rfl | hc
    · exact fun same => other (Int.ofNat_inj.mp same)
    · exact ne_of_lt ((low c hc).trans_le (Int.natCast_nonneg _))
  have row1 := row (k + 2) packed.tail1 (by omega) (by decide)
  have row2 := row (k + 1) packed.tail2 (by omega) (by decide)
  have absent : Cuckoo.query colliding (packed.table (k + 2 : Nat) (k + 1 : Nat)) (k + 3 : Nat) = false :=
    Bool.or_eq_false_iff.mpr ⟨row1, row2⟩
  have nowhere : BSlot.querySlots colliding (jammed k) ⟨some 0, none, none⟩ (k + 3 : Nat) = none := by
    refine List.find?_eq_none.mpr fun i hi => ?_
    simp only [List.mem_cons, List.not_mem_nil, or_false] at hi
    obtain rfl | rfl | rfl := hi
    · exact Bool.eq_false_iff.mp absent
    · exact Bool.false_ne_true
    · exact Bool.false_ne_true
  have denied : (jammed k).sblacklist.any (· == (⟨1, (k + 3 : Nat)⟩ : Edge).arc) = false := by
    rw [List.any_eq_false]
    intro d hd
    obtain ⟨i, hi, rfl⟩ := List.mem_map.mp hd
    rw [List.mem_range] at hi
    rw [beq_iff_eq]
    intro same
    have : i + 1 = k + 3 := Int.ofNat_inj.mp (congrArg Arc.item same)
    omega
  rw [BSlot.query, if_neg (by simp [holder])]
  simp only [holder, nowhere, denied]
  rfl

theorem jammed_kicks : (packed.table (k + 2 : Nat) (k + 1 : Nat)).insert (chtCells colliding) kicktimes colliding.rand
    (500 * k) ((k + 3 : Nat) : Key) =
      ⟨packed.table (k + 3 : Nat) (k + 2 : Nat), 500 * k + 500, some ((k + 1 : Nat) : Key)⟩ := by
  have pos : ∀ n : Nat, (0 : Key) < (n + 1 : Nat) := fun n => Int.natCast_pos.mpr n.succ_pos
  have apart : ∀ a b : Nat, a ≠ b → (a : Key) ≠ (b : Key) := fun a b other same => other (Int.ofNat_inj.mp same)
  exact Jam.insert_jammed packed_movers (fun _ => rfl) (pos (k + 1)) (pos k) (pos (k + 2)) (apart _ _ (by omega))
    (apart _ _ (by omega)) (apart _ _ (by omega)) 83 (500 * k)

theorem jammed_roomy :
    roomySlot (jammed k) ⟨some 0, none, none⟩ = some (0, 0, packed.table (k + 2 : Nat) (k + 1 : Nat)) := by
  have room : ∀ a b, hasRoom (packed.table a b) = true := by
    intro a b
    have few : (160 : Int) < 432 := by decide
    exact decide_eq_true few
  rw [roomySlot, List.findSome?, List.findSome?, List.findSome?]
  simp [Memory.deref, Three.get, jammed, Heap.get, room]

variable {k}

theorem jammed_insert (few : k < sbl) :
    Holemerge.insert colliding (jammed k) holding ⟨1, (k + 3 : Nat)⟩ = (jammed (k + 1), holding, true) := by
  have found : holding.locate colliding 1 = some (.link 0 true 0 0, holder) := rfl
  have kicks : (packed.table (k + 2 : Nat) (k + 1 : Nat)).insert (chtCells colliding) kicktimes colliding.rand
      (jammed k).rands ((k + 3 : Nat) : Key) = _ := jammed_kicks k
  have pushed : insertChts colliding (jammed k) 1 ⟨some 0, none, none⟩ (k + 3 : Nat) =
      (jammed (k + 1), ⟨some 0, none, none⟩, 9) := by
    rw [insertChts, jammed_roomy]
    simp only [kicks, jammed_length, if_pos few]
    simp only [jammed, Memory.deny, Heap.set, List.set_cons_zero, List.range_succ, List.map_append, List.map_singleton]
    rfl
  have absent : (⟨1, .chts ⟨some 0, none, none⟩⟩ : BSlot Key).query colliding (jammed k) ⟨1, (k + 3 : Nat)⟩ = 0 :=
    jammed_query k
  have kept : holder.insert colliding (jammed k) ⟨1, (k + 3 : Nat)⟩ = (jammed (k + 1), holder, 9) := by
    unfold holder
    simp only [BSlot.insert]
    rw [absent]
    simp only [pushed]
    rfl
  have arc : Edge.arc ⟨1, (k + 3 : Nat)⟩ = ⟨1, ((k + 3 : Nat) : Key)⟩ := rfl
  rw [Holemerge.insert, arc, insertArc]
  simp only [found, edgeOps, jammed_query k, kept]
  rfl

end Next

theorem jammed_insertEdges {k : Nat} (few : k ≤ sbl) :
    insertEdges colliding (jammed 0, holding) (jamEdges k) = (jammed k, holding) := by
  induction k with
  | zero => rfl
  | succ k ih =>
      have before : insertEdges colliding (jammed 0, holding) (jamEdges k) = (jammed k, holding) := ih (Nat.le_of_lt few)
      rw [jamEdges, List.range_succ, List.map_append, ← jamEdges, insertEdges_append, before]
      simp only [insertEdges, List.map_singleton, List.foldl_cons, List.foldl_nil, jammed_insert (Nat.lt_of_succ_le few)]

end CuckooGraph
