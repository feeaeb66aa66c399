import CuckooGraph.Slot.Insert

/-! # How long sblacklist gets

Every push of `bSlot::insert` asks for room first, or is paid for by the entries
a new table takes, except the pushes of a merge.
-/

namespace CuckooGraph

open TwoLayer

variable {α : Type} [Entry α] {E : Env} {m : Memory α} {src : Key} {slot : Three Addr} {k : Nat}

omit [Entry α] in
@[simp] theorem length_deny (left : List α) :
    (m.deny src left).sblacklist.length = m.sblacklist.length + left.length := by
  simp [Memory.deny]

/-- If three S-CHTs were merged now, `sblacklist` would have `k` entries at most. -/
def MergeFits (E : Env) (k : Nat) (m : Memory α) (slot : Three Addr) : Prop :=
  ∀ a0 a1 a2 c0 c1 c2, slot = ⟨some a0, some a1, some a2⟩ → m.heap.get a0 = some c0 →
    m.heap.get a1 = some c1 → m.heap.get a2 = some c2 →
    m.sblacklist.length +
      (Table.merge (chtCells E) kicktimes E.rand c0 c1 c2 m.rands).left.length ≤ k

/-- If inserting `x` merges three S-CHTs, what the merge pushes fits. -/
def PushFits (E : Env) (k : Nat) (m : Memory α) (slot : Three Addr) (x : α) : Prop :=
  match roomySlot m slot with
  | none => MergeFits E k m slot
  | some (_, a, c) =>
      let r := c.insert (chtCells E) kicktimes E.rand m.rands x
      r.left ≠ none → sbl ≤ m.sblacklist.length →
        MergeFits E k { m with heap := m.heap.set a r.table, rands := r.draws } slot

instance (m : Memory α) (slot : Three Addr) : Decidable (MergeFits E k m slot) :=
  decidable_of_iff (∀ a0 ∈ slot.s0, ∀ a1 ∈ slot.s1, ∀ a2 ∈ slot.s2, ∀ c0 ∈ m.heap.get a0, ∀ c1 ∈ m.heap.get a1,
      ∀ c2 ∈ m.heap.get a2, m.sblacklist.length +
        (Table.merge (chtCells E) kicktimes E.rand c0 c1 c2 m.rands).left.length ≤ k)
    ⟨fun all a0 a1 a2 c0 c1 c2 three h0 h1 h2 => all a0 (by rw [three]; rfl) a1 (by rw [three]; rfl) a2
        (by rw [three]; rfl) c0 h0 c1 h1 c2 h2,
      fun all a0 s0 a1 s1 a2 s2 c0 h0 c1 h1 c2 h2 => all a0 a1 a2 c0 c1 c2 (Three.of_parts s0 s1 s2) h0 h1 h2⟩

instance (m : Memory α) (slot : Three Addr) (x : α) : Decidable (PushFits E k m slot x) :=
  match found : roomySlot m slot with
  | none => decidable_of_iff (MergeFits E k m slot) (by rw [PushFits, found])
  | some (_, a, c) =>
      decidable_of_iff ((c.insert (chtCells E) kicktimes E.rand m.rands x).left ≠ none → sbl ≤ m.sblacklist.length →
          MergeFits E k { m with heap := m.heap.set a (c.insert (chtCells E) kicktimes E.rand m.rands x).table,
                                 rands := (c.insert (chtCells E) kicktimes E.rand m.rands x).draws } slot)
        (by rw [PushFits, found])

/-- The drained entries pay for what a new table does not take. -/
theorem length_openTable [LawfulEntry α] {l1 l2 : Nat} {e : α} (p1 : 0 < l1) (p2 : 0 < l2)
    (owned : ∀ x ∈ m.own src, Entry.dst x ≠ 0) (he : Entry.dst e ≠ 0) :
    (openTable E m src l1 l2 e).1.sblacklist.length ≤ m.sblacklist.length := by
  let new : Cuckoo α := Table.new (chtCells E) l1 l2
  have ready : new.Ready := Table.new_ready _ p1 p2
  have items : ∀ x ∈ m.own src ++ [e], (chtCells E).free x = false := by
    intro x hx
    rw [chtCells_free]
    rcases List.mem_append.mp hx with hx | hx
    · exact owned x hx
    · exact List.mem_singleton.mp hx ▸ he
  have fewer := Table.insertAll_lt chtCells_lawful (by norm_num) kicktimes E.rand items (by simp) ready
    (Table.stored_new chtCells_lawful l1 l2) m.rands
  have parts : m.sblacklist.length =
      (m.own src).length + (m.sblacklist.filter fun d => !(d.src == src)).length := by
    rw [Memory.own, List.length_map]
    exact List.length_eq_length_filter_add _
  rw [List.length_append, List.length_singleton] at fewer
  change _ < _ + 1 at fewer
  rw [openTable_eq, parts]
  simp only [length_deny]
  rw [add_comm]
  exact Nat.add_le_add_right (Nat.le_of_lt_succ fewer) _

theorem length_grow [LawfulEntry α] {e : α} (rooted : Rooted E m slot)
    (owned : ∀ x ∈ m.own src, Entry.dst x ≠ 0) (he : Entry.dst e ≠ 0) (bound : m.sblacklist.length ≤ k)
    (fits : MergeFits E k m slot) : (grow E m src slot e).1.sblacklist.length ≤ k := by
  rcases rooted.cases with rfl | ⟨a0, c0, rfl, live0, placed0, base⟩ |
    ⟨a0, c0, a1, c1, rfl, live0, placed0, live1, placed1, ne01, base, half1⟩ |
    ⟨a0, c0, a1, c1, a2, c2, rfl, live0, placed0, live1, placed1, live2, placed2, ne01, ne02, ne12,
      base, half1, half2⟩
  · let new : Cuckoo α := Table.new (chtCells E) u1 u2
    have vacant : new.stored (chtCells E) = 0 := Table.stored_new chtCells_lawful u1 u2
    have settled := Table.insert_room (x := e)
      ((Table.scaled_new (by norm_num) (by norm_num)).ready : new.Ready) (by rw [vacant]; norm_num)
      kicktimes E.rand m.rands
    simpa [grow, Three.toList, new, settled] using bound
  · have half := Table.halfOf_new (H := chtCells E) c0
    obtain ⟨p1, p2⟩ := Table.ready_new (half.ready base)
    have shorter := length_openTable (E := E) p1 p2 owned he
    simpa [grow, Three.toList, Memory.deref, live0] using shorter.trans bound
  · have ready := half1.ready base
    have shorter : (openTable E m src c1.len1 c1.len2 e).1.sblacklist.length ≤ _ :=
      length_openTable (ready true) (ready false) owned he
    simpa [grow, Three.toList, Memory.deref, live1] using shorter.trans bound
  · obtain ⟨merged, -, -, scaled, -⟩ := mergeSlots_turn src live0 placed0 live1 live2 base half1 half2
    have half := Table.halfOf_new (H := chtCells E) (mergeSlots E m src a0 a1 a2 c0 c1 c2).2.2
    obtain ⟨p1, p2⟩ := Table.ready_new (half.ready scaled)
    have shorter := length_openTable (E := E) p1 p2 (merged.owned owned) he
    have pushed : (mergeSlots E m src a0 a1 a2 c0 c1 c2).1.sblacklist.length ≤ k := by
      have enough := fits a0 a1 a2 c0 c1 c2 rfl live0 live1 live2
      simpa [mergeSlots] using enough
    have unfolded : (grow E m src ⟨some a0, some a1, some a2⟩ e).1 =
        (openTable E (mergeSlots E m src a0 a1 a2 c0 c1 c2).1 src
          ((mergeSlots E m src a0 a1 a2 c0 c1 c2).2.2.len1 / 2)
          ((mergeSlots E m src a0 a1 a2 c0 c1 c2).2.2.len2 / 2) e).1 := by
      simp [grow, Three.toList, Memory.deref, live0, live1, live2]
    rw [unfolded]
    exact shorter.trans pushed

theorem length_insertChts [LawfulEntry α] {x : α} (rooted : Rooted E m slot)
    (owned : ∀ y ∈ m.own src, Entry.dst y ≠ 0) (hx : Entry.dst x ≠ 0) (large : sbl ≤ k)
    (bound : m.sblacklist.length ≤ k) (fits : PushFits E k m slot x) :
    (insertChts E m src slot x).1.sblacklist.length ≤ k := by
  unfold PushFits at fits
  unfold insertChts
  split
  · rename_i full
    rw [full] at fits
    exact length_grow rooted owned hx bound fits
  · rename_i i a c found
    rw [found] at fits
    obtain ⟨member, live⟩ := roomySlot_some found
    have settled := Table.insert_settled (H := chtCells E) chtCells_lawful (by norm_num)
      (rooted.ready member live) kicktimes E.rand m.rands (chtCells_free.mpr hx)
    dsimp only at fits ⊢
    generalize c.insert (chtCells E) kicktimes E.rand m.rands x = first at settled fits ⊢
    let m' : Memory α := { m with heap := m.heap.set a first.table, rands := first.draws }
    have written : Written E m slot m' c first.table :=
      rooted.write member live settled.size (settled.placed (rooted.placed member live)) rfl
    split
    · exact bound
    · rename_i mykick lost
      split
      · rename_i room
        rw [length_deny, List.length_singleton]
        exact (Nat.succ_le_of_lt room).trans large
      · rename_i crowded
        have homeless := (settled.left mykick lost).2
        rw [chtCells_free] at homeless
        exact length_grow written.rooted owned homeless bound (fits (by simp [lost]) (Nat.le_of_not_lt crowded))

/-- The change to an S-CHT pushes nothing. -/
theorem length_transform [LawfulEntry α] {cells : List α} {x : α} (small : Entry.lt α < bup)
    (inline : Inline src (Entry.lt α) cells) (hx : Entry.dst x ≠ 0)
    (distinct : Distinct (filled cells + {x})) :
    (transform E m src cells x).1.sblacklist.length = m.sblacklist.length := by
  let new : Cuckoo α := Table.new (chtCells E) u1 u2
  have vacant : new.stored (chtCells E) = 0 := Table.stored_new chtCells_lawful u1 u2
  have items : ∀ y ∈ cells ++ [x], (chtCells E).free y = false := by
    intro y hy
    rw [chtCells_free]
    rcases List.mem_append.mp hy with hy | hy
    · have member : y ∈ filled cells := inline.full ▸ hy
      exact (mem_filled.mp member).2
    · exact List.mem_singleton.mp hy ▸ hx
  have regroup : new.stored (chtCells E) + ↑(cells ++ [x]) = filled cells + {x} := by
    rw [vacant, zero_add, inline.full, ← Multiset.coe_add, Multiset.coe_singleton]
  have none := Table.insertAll_fit chtCells_lawful (by norm_num) kicktimes E.rand items
    ((Table.scaled_new (by norm_num) (by norm_num)).ready : new.Ready) (regroup ▸ distinct.apart)
    (by rw [vacant, Multiset.card_zero, List.length_append, inline.width, List.length_singleton]; omega)
    m.rands
  simp [transform, none]

theorem length_insertInline [LawfulEntry α] {update : α → α} {pt : Nat} {cells : List α} {x : α}
    (small : Entry.lt α < bup) (inline : Inline src pt cells) (hx : Entry.dst x ≠ 0)
    (distinct : Distinct (filled cells)) :
    (insertInline E m src update pt cells x).1.sblacklist.length = m.sblacklist.length := by
  unfold insertInline
  split
  · rfl
  · rename_i absent
    split
    · rename_i full
      subst full
      apply length_transform small inline hx
      rw [add_comm, Multiset.singleton_add, distinct_cons]
      refine ⟨fun c hc => ?_, distinct⟩
      simpa using List.findIdx?_eq_none_iff.mp absent c (mem_filled.mp hc).1
    · split
      · rfl
      · rfl

end CuckooGraph
