import CuckooGraph.Slot.Insert
import CuckooGraph.Weighted.QueryInsert

/-! # Insertions of the weighted build

Whatever is found gets a weight added and keeps its place; what is not found is
inserted as in the unweighted build. `Credited` is the former, with the weight
that was added.
-/

namespace CuckooGraph

namespace Weighted

open TwoLayer

variable {E : Env} {m : Memory Cell}

/-- Another weight for an entry of `sblacklist`. -/
theorem own_rewrite (m' : Memory Cell) {j : Nat} {d : Arc Cell} (d' : Arc Cell)
    (found : m.sblacklist[j]? = some d) (src : d'.src = d.src)
    (list : m'.sblacklist = m.sblacklist.set j d') :
    (↑(m'.own d.src) + {d.item} : Multiset Cell) = ↑(m.own d.src) + {d'.item} ∧
      ∀ s, s ≠ d.src → m'.own s = m.own s := by
  obtain ⟨hj, rfl⟩ := List.getElem?_eq_some_iff.mp found
  have before : m.sblacklist = m.sblacklist.take j ++ m.sblacklist[j] :: m.sblacklist.drop (j + 1) := by
    simp
  have after : m'.sblacklist = m.sblacklist.take j ++ d' :: m.sblacklist.drop (j + 1) := by
    rw [list, List.set_eq_take_append_cons_drop, if_pos hj]
  generalize m.sblacklist[j] = d at *
  generalize m.sblacklist.take j = front at *
  generalize m.sblacklist.drop (j + 1) = back at *
  refine ⟨?_, fun s other => ?_⟩
  · simp only [Memory.own, before, after, src, List.filter_append, List.filter_cons, beq_self_eq_true,
      if_true, List.map_append, List.map_cons, ← Multiset.coe_add, ← Multiset.cons_coe,
      ← Multiset.singleton_add]
    ac_rfl
  · have away : (d.src == s) = false := by simpa using other.symm
    have away' : (d'.src == s) = false := by rw [src, away]
    simp [Memory.own, before, after, List.filter_append, away, away']

namespace BSlot

variable {b : BSlot Cell} {e : Arc Cell}

/-- The destination is in an inline cell, or in `sblacklist`. -/
def Loose (m : Memory Cell) (b : BSlot Cell) (dst : Key) : Prop :=
  match b.body with
  | .inline _ cells => ∃ c ∈ cells, c.dst = dst
  | .chts _ => ∃ c ∈ m.own b.src, c.dst = dst

/-- The entry `c` has got `k` more, and all else is as it was. -/
structure Credited (E : Env) (m : Memory Cell) (b : BSlot Cell) (m' : Memory Cell) (b' : BSlot Cell)
    (c : Cell) (k : UInt32) : Prop where
  src : b'.src = b.src
  turn : SlotTurn E m b m' b'
  heeds : b.Heeds m → b'.Heeds m'
  numbered : b.Numbered E m → b'.Numbered E m'
  member : c ∈ b.items E m
  items : b'.items E m' + {c} = b.items E m + {c.add k}

/-- A cell written inline. -/
theorem credited_inline {src : Key} {pt : Nat} {cells : List Cell} (inline : Inline src pt cells)
    {j : Nat} (hj : j < cells.length) (used : cells[j].dst ≠ 0) (k : UInt32) :
    Credited E m ⟨src, .inline pt cells⟩ m ⟨src, .inline pt (cells.set j (cells[j].add k))⟩ cells[j] k := by
  obtain ⟨after, items⟩ := inline.change hj (x := cells[j].add k) used used
  exact ⟨rfl, .of_inline rfl after, id, fun _ => trivial,
    mem_filled.mpr ⟨List.getElem_mem hj, used⟩, items⟩

/-- An entry of `sblacklist`. -/
theorem credited_denied {src : Key} {slot : Three Addr} (rooted : Rooted E m slot) (known : src ≠ 0)
    {j : Nat} {d : Arc Cell} (found : m.sblacklist[j]? = some d) (same : d.src = src) (k : UInt32) :
    Credited E m ⟨src, .chts slot⟩ { m with sblacklist := m.sblacklist.set j ⟨d.src, d.item.add k⟩ }
      ⟨src, .chts slot⟩ d.item k := by
  subst same
  let m' : Memory Cell := { m with sblacklist := m.sblacklist.set j ⟨d.src, d.item.add k⟩ }
  obtain ⟨own, others⟩ := own_rewrite m' ⟨d.src, d.item.add k⟩ found rfl rfl
  have member : d.item ∈ m.own d.src := Memory.mem_own.mpr (List.mem_of_getElem? found)
  refine ⟨rfl, ⟨known, ⟨rooted.nodup, rooted.live, rooted.tower⟩, fun _ _ live _ => live,
    fun _ => .inl, others, fun before x hx => ?_, rfl⟩, fun _ => trivial, id,
    Multiset.mem_add.mpr (.inr member), ?_⟩
  · have inside : x ∈ (↑(m.own d.src) + {d.item.add k} : Multiset Cell) := by
      rw [← own]
      exact Multiset.mem_add.mpr (.inl hx)
    rcases Multiset.mem_add.mp inside with hx | hx
    · exact before x hx
    · rw [Multiset.mem_singleton.mp hx]
      exact before d.item member
  · change chtItems E m' d.src slot + {d.item} = chtItems E m d.src slot + {d.item.add k}
    rw [chtItems, add_assoc, own, ← add_assoc]
    rfl

/-- The spec of `bSlot::query_insert`. -/
theorem queryInsert_cases (tidy : b.Tidy) (rooted : b.Rooted E m) (same : b.src = e.src)
    (known : e.src ≠ 0) (hd : e.item.dst ≠ 0) :
    (queryInsert E m b e = (m, b, 0) ∧ ∀ c ∈ b.items E m, c.dst ≠ e.item.dst) ∨
      ((queryInsert E m b e).2.2 ≠ 0 ∧ ∃ (c : Cell) (k : UInt32), c.dst = e.item.dst ∧
        Credited E m b (queryInsert E m b e).1 (queryInsert E m b e).2.1 c k ∧
        ((k = 1 ∧ Loose m b c.dst) ∨ (k = e.item.weight ∧
          ∃ slot, b.body = .chts slot ∧ c ∈ (slot.map m.heap.get).stored (chtCells E)))) := by
  obtain ⟨src, body⟩ := b
  have same : src = e.src := same
  subst same
  cases body with
  | inline pt cells =>
      have inline : Inline e.src pt cells := tidy
      have positive : pt ≠ 0 := fun zero => known (inline.empty.mpr zero)
      simp only [queryInsert, ne_eq, not_true_eq_false, if_false]
      cases found : cells.findIdx? fun c => c.dst == e.item.dst with
      | none =>
          refine .inl ⟨rfl, fun c hc equal => ?_⟩
          have unseen := List.findIdx?_eq_none_iff.mp found c (mem_filled.mp hc).1
          simp [equal] at unseen
      | some j =>
          obtain ⟨hj, here, -⟩ := List.findIdx?_eq_some_iff_getElem.mp found
          have here : cells[j].dst = e.item.dst := by simpa using here
          have get : cells.getD j e.item = cells[j] := by simp [List.getD_eq_getElem?_getD, hj]
          refine .inr ⟨by simpa using positive, cells[j], 1, here, ?_, .inl ⟨rfl, ?_⟩⟩
          · dsimp only
            rw [get]
            exact credited_inline inline hj (here ▸ hd) 1
          · exact ⟨cells[j], List.getElem_mem hj, rfl⟩
  | chts slot =>
      have rooted : Rooted E m slot := rooted
      simp only [queryInsert, ne_eq, not_true_eq_false, if_false]
      cases found : queryInsertSlots E m slot e.item with
      | some r =>
          obtain ⟨c, equal, stored, turn, items, numbered⟩ := queryInsertSlots_some rooted e.src hd found
          have nonzero : ¬ (r.2 : Int) + 9 = 0 := by omega
          exact .inr ⟨nonzero, c, e.item.weight, equal,
            ⟨rfl, .of_turn turn known, fun _ => trivial, numbered, Multiset.mem_add.mpr (.inl stored), items⟩,
            .inr ⟨rfl, slot, rfl, stored⟩⟩
      | none =>
          have tables := queryInsertSlots_none rooted found
          cases listed : m.sblacklist.findIdx? fun d => d.src == e.src && d.item.dst == e.item.dst with
          | none =>
              refine .inl ⟨rfl, fun c hc equal => ?_⟩
              rcases Multiset.mem_add.mp hc with hc | hc
              · exact tables c hc equal
              · have unseen := List.findIdx?_eq_none_iff.mp listed _ (Memory.mem_own.mp hc)
                simp [equal] at unseen
          | some j =>
              obtain ⟨hj, here, -⟩ := List.findIdx?_eq_some_iff_getElem.mp listed
              obtain ⟨src, dst⟩ : m.sblacklist[j].src = e.src ∧ m.sblacklist[j].item.dst = e.item.dst := by
                simpa using here
              have get : m.sblacklist.getD j e = m.sblacklist[j] := by simp [List.getD_eq_getElem?_getD, hj]
              have at_ := List.getElem?_eq_getElem hj
              have nonzero : ¬ blist = 0 := by decide
              refine .inr ⟨nonzero, m.sblacklist[j].item, 1, dst, ?_, .inl ⟨rfl, ?_⟩⟩
              · simp only [get]
                exact credited_denied rooted known at_ src 1
              · exact ⟨_, Memory.mem_own.mpr (src ▸ List.getElem_mem hj), rfl⟩

/-- `bSlot::insert` of a destination which is not there. -/
theorem insert_absent (tidy : b.Tidy) (rooted : b.Rooted E m) (owned : ∀ c ∈ m.own b.src, c.dst ≠ 0)
    (same : b.src = e.src) (known : e.src ≠ 0) (hd : e.item.dst ≠ 0)
    (absent : ∀ c ∈ b.items E m, c.dst ≠ e.item.dst) :
    let r := insert E m b e
    r.2.1.src = b.src ∧ SlotTurn E m b r.1 r.2.1 ∧ (b.Heeds m → r.2.1.Heeds r.1) ∧
      (b.Heeds m → Distinct (b.items E m + {e.item}) → SlotGains E m b r.1 r.2.1 {e.item}) := by
  obtain ⟨src, body⟩ := b
  have same : src = e.src := same
  subst same
  cases body with
  | inline pt cells =>
      have inline : Inline e.src pt cells := tidy
      have positive : pt ≠ 0 := fun zero => known (inline.empty.mpr zero)
      have other : ∀ c ∈ cells, Entry.dst c ≠ Entry.dst e.item := by
        intro c hc equal
        exact absent c (mem_filled.mpr ⟨hc, fun zero => hd (equal.symm.trans zero)⟩) equal
      simp only [insert, positive, if_false, ne_eq, not_true_eq_false]
      exact insertInline_absent _ inline known hd other
  | chts slot =>
      obtain ⟨turn, gains⟩ := insertChts_turn (E := E) (x := e.item) rooted owned hd
      simp only [insert, ne_eq, not_true_eq_false, if_false]
      exact ⟨trivial, .of_turn turn known, fun _ => trivial, fun _ distinct => .of_gains (gains distinct)⟩

end BSlot

theorem weightOps_lawful : (weightOps E).Lawful where
  other m s e used ne := by
    obtain ⟨src, body⟩ := s
    cases body with
    | inline pt cells =>
        have positive : pt ≠ 0 := by simpa [BSlot.isSlotEmpty, BSlot.pt] using used
        simp [weightOps, BSlot.insert, positive, ne]
    | chts slot => simp [weightOps, BSlot.insert, ne]
  new m e := rfl

section Touch

variable {s : BSlot Cell} {e : Arc Cell}

theorem touch_found (found : (BSlot.queryInsert E m s e).2.2 ≠ 0) : (weightOps E).touch m s e =
    ((BSlot.queryInsert E m s e).1, (BSlot.queryInsert E m s e).2.1) := by
  simp [SlotOps.touch, weightOps, found]

theorem touch_absent (absent : BSlot.queryInsert E m s e = (m, s, 0)) : (weightOps E).touch m s e =
    ((BSlot.insert E m s e).1, (BSlot.insert E m s e).2.1) := by
  simp [SlotOps.touch, weightOps, absent]

end Touch

theorem weightOps_faithful : (weightOps E).Faithful E where
  toLawful := weightOps_lawful
  touched m s e tidy rooted owned same known hd := by
    rcases BSlot.queryInsert_cases tidy rooted same known hd with ⟨missing, absent⟩ | ⟨found, c, k, dst, credited, -⟩
    · rw [touch_absent missing]
      obtain ⟨src, turn, heeds, gains⟩ := BSlot.insert_absent tidy rooted owned same known hd absent
      refine ⟨src, turn, heeds, fun heeds distinct => ?_⟩
      have gained := gains heeds (by
        rw [add_comm, Multiset.singleton_add, distinct_cons]
        exact ⟨absent, distinct⟩)
      exact ⟨gained.numbered, .inr ⟨absent, gained.items⟩⟩
    · rw [touch_found found]
      refine ⟨credited.src, credited.turn, credited.heeds, fun _ _ => ⟨credited.numbered, .inl ?_⟩⟩
      exact ⟨c, credited.member, c.add k, dst, dst, credited.items⟩

end Weighted

end CuckooGraph
