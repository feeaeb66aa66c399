import CuckooGraph.Unweighted.Contract

/-! # bSlot::del

A deletion takes the destination out of an inline cell, an S-CHT or the S
denylist. It returns -1 when the `bSlot` has become empty, and also when the
last denylisted entry of a `bSlot` without S-CHTs goes, which then keeps its
source and `pt = -1`: a husk.
-/

namespace CuckooGraph

open TwoLayer

namespace BSlot

variable {E : Env} {m : Memory Key} {b : BSlot Key} {e : Edge}

/-- The deletion leaves a husk: there is no S-CHT, and no denylisted entry but
    those for the destination. -/
def Husk (m : Memory Key) (b : BSlot Key) (e : Edge) : Prop :=
  match b.body with
  | .inline _ _ => False
  | .chts slot => slot.toList = [] ∧ m.own b.src ≠ [] ∧ ∀ x ∈ m.own b.src, x = e.dst

instance : Decidable (Husk m b e) :=
  match b with
  | ⟨_, .inline _ _⟩ => isFalse id
  | ⟨src, .chts slot⟩ =>
      inferInstanceAs (Decidable (slot.toList = [] ∧ m.own src ≠ [] ∧ ∀ x ∈ m.own src, x = e.dst))

/-- If the deletion pours an S-CHT, no insertion into `slot[0]` fails meanwhile. -/
def PourSafe (E : Env) (m : Memory Key) (b : BSlot Key) (e : Edge) : Prop :=
  match b.body with
  | .inline _ _ => True
  | .chts slot => ∀ m', delSlots E m slot e.dst = some m' → PoursClean E m' slot

instance : Decidable (PourSafe E m b e) :=
  match b with
  | ⟨_, .inline _ _⟩ => isTrue trivial
  | ⟨_, .chts slot⟩ => inferInstanceAs (Decidable (∀ m' ∈ delSlots E m slot e.dst, PoursClean E m' slot))

/-- The four ways in which a deletion ends. -/
inductive Ending (m : Memory Key) (b : BSlot Key) (e : Edge) : Memory Key × BSlot Key × Int → Prop
  | absent : Ending m b e (m, b, 2)
  | stays {m' : Memory Key} {b' : BSlot Key} (src : b'.src = b.src) (heeds : b.Heeds m → b'.Heeds m') :
      Ending m b e (m', b', 1)
  | gone {m' : Memory Key} (own : b.Heeds m → m'.own b.src = []) : Ending m b e (m', empty, -1)
  | husk {m' : Memory Key} (hollow : b.Husk m e) (own : m'.own b.src = []) : Ending m b e (m', b, -1)

/-- What a deletion comes to. -/
structure Dropped (E : Env) (m : Memory Key) (b : BSlot Key) (e : Edge)
    (r : Memory Key × BSlot Key × Int) : Prop where
  turn : SlotTurn E m b r.1 r.2.1
  ending : Ending m b e r
  kept : b.PourSafe E m e → b.Heeds m → Distinct (b.items E m) → b.Numbered E m →
    r.2.1.Numbered E r.1 ∧
      ((r.2.2 = 2 ∧ e.dst ∉ b.items E m) ∨
        (r.2.2 ≠ 2 ∧ r.2.1.items E r.1 + {e.dst} = b.items E m))

/-- A destination which is not there. -/
theorem Dropped.of_absent (tidy : b.Tidy) (rooted : b.Rooted E m) (absent : e.dst ∉ b.items E m) :
    Dropped E m b e (m, b, 2) :=
  ⟨.refl tidy rooted, .absent, fun _ _ _ numbered => ⟨numbered, .inl ⟨rfl, absent⟩⟩⟩

/-- `bSlot::del` for `pt ≥ 0`. -/
theorem del_inline {pt : Nat} {cells : List Key} (inline : Inline e.src pt cells) (known : e.src ≠ 0)
    (hd : e.dst ≠ 0) :
    Dropped E m ⟨e.src, .inline pt cells⟩ e (del E m ⟨e.src, .inline pt cells⟩ e) := by
  cases pt with
  | zero => exact absurd (inline.empty.mpr rfl) known
  | succ pt =>
      simp only [del, ne_eq, not_true_eq_false, if_false, Nat.add_eq_zero_iff, one_ne_zero, and_false,
        Nat.add_sub_cancel]
      cases found : cells.findIdx? (· == e.dst) with
      | none =>
          refine .of_absent inline trivial fun member => ?_
          have unseen := List.findIdx?_eq_none_iff.mp found e.dst (mem_filled.mp member).1
          simp at unseen
      | some j =>
          obtain ⟨hj, here, -⟩ := List.findIdx?_eq_some_iff_getElem.mp found
          have here : cells[j] = e.dst := by simpa using here
          obtain ⟨after, items⟩ := inline.clear hj (here.symm ▸ hd : Entry.dst cells[j] ≠ 0)
          rw [here] at items
          dsimp only
          split
          · rename_i last
            subst last
            have empty : (⟨0, .inline 0 (cells.set j 0)⟩ : BSlot Key) = BSlot.empty :=
              Tidy.eq_empty (b := ⟨0, .inline 0 (cells.set j 0)⟩) after rfl
            rw [empty]
            refine ⟨.of_inline rfl tidy_empty, .gone id, fun _ _ _ _ => ⟨trivial, .inr ⟨by simp, ?_⟩⟩⟩
            rw [← empty]
            exact items
          · rename_i more
            rw [if_neg more] at after
            exact ⟨.of_inline rfl after, .stays rfl id,
              fun _ _ _ _ => ⟨trivial, .inr ⟨by simp, items⟩⟩⟩

/-- Erasing an edge from `sblacklist`. -/
theorem own_erase {m' : Memory Key} (list : m'.sblacklist = m.sblacklist.filter fun d => !(d == e.arc)) :
    m'.own e.src = (m.own e.src).filter (· != e.dst) ∧ ∀ s, s ≠ e.src → m'.own s = m.own s := by
  simp only [Memory.own, list, List.filter_filter, List.filter_map]
  refine ⟨congrArg _ (List.filter_congr fun d _ => ?_), fun s other =>
    congrArg _ (List.filter_congr fun d _ => ?_)⟩
  · obtain ⟨src, dst⟩ := d
    by_cases same : src = e.src
    · simp [same, Edge.arc, bne]
    · have absent : (src == e.src) = false := by simpa using same
      simp [absent]
  · obtain ⟨src, dst⟩ := d
    by_cases same : src = s
    · simp [same, Edge.arc, other]
    · simp [same]

/-- `bSlot::del` through the S denylist. -/
theorem del_denied {slot : Three Addr} (rooted : CuckooGraph.Rooted E m slot) (known : e.src ≠ 0)
    (missing : delSlots E m slot e.dst = none) :
    Dropped E m ⟨e.src, .chts slot⟩ e (del E m ⟨e.src, .chts slot⟩ e) := by
  have unstored := delSlots_none rooted missing
  simp only [del, ne_eq, not_true_eq_false, if_false, missing]
  split
  · rename_i listed
    let m' : Memory Key := { m with sblacklist := m.sblacklist.filter fun d => !(d == e.arc) }
    obtain ⟨mine, others⟩ : m'.own e.src = (m.own e.src).filter (· != e.dst) ∧
      ∀ s, s ≠ e.src → m'.own s = m.own s := own_erase rfl
    have listed : e.dst ∈ m.own e.src := by
      rw [Memory.mem_own]
      simpa [Edge.arc] using listed
    have turn : Turn E e.src m slot m' slot :=
      ⟨⟨rooted.nodup, rooted.live, rooted.tower⟩, fun _ _ live _ => live, fun _ => .inl, others,
        fun before x hx => before x (List.mem_of_mem_filter (mine ▸ hx)), rfl⟩
    have flag : (m'.sblacklist.any fun d => d.src == e.src) = true ↔ m'.own e.src ≠ [] :=
      Memory.own_any
    have kept : Distinct (chtItems E m e.src slot) →
        chtItems E m' e.src slot + {e.dst} = chtItems E m e.src slot := by
      intro distinct
      have nodup : (m.own e.src).Nodup := by
        have own : Distinct (m.own e.src : Multiset Key) := distinct.mono (Multiset.le_add_left _ _)
        exact Multiset.coe_nodup.mp (Multiset.Nodup.of_map _ own)
      have erased : (↑(m'.own e.src) : Multiset Key) + {e.dst} = ↑(m.own e.src) := by
        rw [mine, ← List.Nodup.erase_eq_filter nodup, ← Multiset.coe_erase, add_comm,
          Multiset.singleton_add]
        exact Multiset.cons_erase listed
      rw [chtItems, add_assoc, erased]
      rfl
    have ret : ∀ ret : Int, ret ≠ 2 → Ending m ⟨e.src, .chts slot⟩ e (m', ⟨e.src, .chts slot⟩, ret) →
        Dropped E m ⟨e.src, .chts slot⟩ e (m', ⟨e.src, .chts slot⟩, ret) := fun ret nonzero ending =>
      ⟨.of_turn turn known, ending, fun _ _ distinct numbered =>
        ⟨numbered, .inr ⟨nonzero, kept distinct⟩⟩⟩
    split
    · exact ret 1 (by decide) (.stays rfl fun _ => trivial)
    · rename_i last
      have none : m'.own e.src = [] := by
        by_contra some
        exact last (flag.mpr some)
      split
      · rename_i hollow
        refine ret (-1) (by decide) (.husk ⟨hollow, List.ne_nil_of_mem listed, fun x hx => ?_⟩ none)
        by_contra other
        have member : x ∈ m'.own e.src := by
          rw [mine]
          exact List.mem_filter.mpr ⟨hx, by simpa using other⟩
        rw [none] at member
        cases member
      · exact ret 1 (by decide) (.stays rfl fun _ => trivial)
  · rename_i unlisted
    refine .of_absent known rooted fun member => ?_
    rcases Multiset.mem_add.mp member with stored | own
    · exact unstored stored
    · exact unlisted (by simpa [Edge.arc] using Memory.mem_own.mp (Multiset.mem_coe.mp own))

/-- The spec of `bSlot::del`. -/
theorem del_dropped (tidy : b.Tidy) (rooted : b.Rooted E m) (same : b.src = e.src)
    (known : e.src ≠ 0) (hd : e.dst ≠ 0) : Dropped E m b e (del E m b e) := by
  obtain ⟨src, body⟩ := b
  have same : src = e.src := same
  subst same
  cases body with
  | inline pt cells => exact del_inline tidy known hd
  | chts slot =>
      have rooted : CuckooGraph.Rooted E m slot := rooted
      cases found : delSlots E m slot e.dst with
      | none => exact del_denied rooted known found
      | some m1 =>
          obtain ⟨lost, items, numbers⟩ := delSlots_turn e.src rooted hd found
          have shrunk : Shrunk E m1 e.src slot (contract E m1 ⟨e.src, .chts slot⟩ slot e.src) :=
            contract_shrunk known lost.rooted
          have unfolded : del E m ⟨e.src, .chts slot⟩ e = contract E m1 ⟨e.src, .chts slot⟩ slot e.src := by
            simp [del, found]
          rw [unfolded]
          generalize contract E m1 ⟨e.src, .chts slot⟩ slot e.src = r at shrunk
          obtain ⟨m', b', ret⟩ := r
          have before : SlotTurn E m ⟨e.src, .chts slot⟩ m1 ⟨e.src, .chts slot⟩ := .of_turn lost known
          refine ⟨before.trans shrunk.turn rfl, ?_, fun safe _ distinct numbered => ?_⟩
          · rcases shrunk.outcome with ⟨rfl, slot', rfl⟩ | ⟨rfl, rfl, own⟩
            · exact .stays rfl fun _ => trivial
            · exact .gone fun _ => own
          · have distinct : Distinct (chtItems E m e.src slot) := distinct
            have smaller : Distinct (chtItems E m1 e.src slot) :=
              distinct.mono (items ▸ Multiset.le_add_right _ _)
            obtain ⟨same, counted⟩ := shrunk.kept (safe m1 found) smaller (numbers numbered)
            refine ⟨counted, .inr ⟨?_, ?_⟩⟩
            · rcases shrunk.outcome with ⟨rfl, -⟩ | ⟨rfl, -⟩ <;> simp
            · exact (congrArg (· + {e.dst}) same).trans items

namespace Ending

variable {r : Memory Key × BSlot Key × Int}

theorem stays_ret (ending : Ending m b e r) (ret : r.2.2 ≠ -1) : r.2.2 = 1 ∨ r.2.2 = 2 := by
  cases ending with
  | absent => exact .inr rfl
  | stays _ _ => exact .inl rfl
  | gone _ => exact absurd rfl ret
  | husk _ _ => exact absurd rfl ret

theorem stays_src (ending : Ending m b e r) (ret : r.2.2 ≠ -1) : r.2.1.src = b.src := by
  cases ending with
  | absent => rfl
  | stays src _ => exact src
  | gone _ => exact absurd rfl ret
  | husk _ _ => exact absurd rfl ret

theorem stays_heeds (ending : Ending m b e r) (ret : r.2.2 ≠ -1) (before : b.Heeds m) :
    r.2.1.Heeds r.1 := by
  cases ending with
  | absent => exact before
  | stays _ heeds => exact heeds before
  | gone _ => exact absurd rfl ret
  | husk _ _ => exact absurd rfl ret

theorem left_own (ending : Ending m b e r) (ret : r.2.2 = -1) (before : b.Heeds m) :
    r.1.own b.src = [] := by
  cases ending with
  | absent => cases ret
  | stays _ _ => cases ret
  | gone own => exact own before
  | husk _ own => exact own

/-- Whatever `bSlot::del` returns -1 for, it stores nothing any more. -/
theorem left_items (ending : Ending m b e r) (ret : r.2.2 = -1) : r.2.1.items E r.1 = 0 := by
  cases ending with
  | absent => cases ret
  | stays _ _ => cases ret
  | gone own => exact filled_replicate _
  | @husk m' hollow own =>
      obtain ⟨src, body⟩ := b
      cases body with
      | inline pt cells => exact hollow.elim
      | chts slot =>
          obtain ⟨bare, -, -⟩ := hollow
          obtain rfl := Three.toList_eq_nil.mp bare
          have own : m'.own src = [] := own
          change Three.stored _ _ + (m'.own src : Multiset Key) = 0
          rw [own]
          rfl

end Ending

/-- What is stored afterwards, and what the result tells about it. -/
theorem Dropped.erase {r : Memory Key × BSlot Key × Int} (dropped : Dropped E m b e r)
    (safe : b.PourSafe E m e) (heeds : b.Heeds m) (distinct : Distinct (b.items E m))
    (numbered : b.Numbered E m) : r.2.1.Numbered E r.1 ∧
      r.2.1.items E r.1 = (b.items E m).erase e.dst ∧ (r.2.2 = 2 ↔ e.dst ∉ b.items E m) := by
  obtain ⟨counted, kept⟩ := dropped.kept safe heeds distinct numbered
  refine ⟨counted, ?_⟩
  rcases kept with ⟨ret, absent⟩ | ⟨ret, items⟩
  · refine ⟨?_, fun _ => absent, fun _ => ret⟩
    have ending := dropped.ending
    rw [Multiset.erase_of_notMem absent]
    cases ending with
    | absent => rfl
    | stays _ _ => cases ret
    | gone _ => cases ret
    | husk _ _ => cases ret
  · have present : e.dst ∈ b.items E m := by
      rw [← items]
      exact Multiset.mem_add.mpr (.inr (Multiset.mem_singleton_self e.dst))
    refine ⟨?_, fun two => absurd two ret, fun absent => absurd present absent⟩
    rw [← items, add_comm, Multiset.singleton_add, Multiset.erase_cons_head]

end BSlot

end CuckooGraph
