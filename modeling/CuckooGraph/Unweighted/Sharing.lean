import CuckooGraph.Unweighted.Successors
import CuckooGraph.Graph.Sharing

/-! # Calls and a shared denylist

For each call, what it must not meet among the entries `F` of others on
`sblacklist`, in order to answer and to act as if they were not there.
-/

namespace CuckooGraph

open TwoLayer Holemerge

variable {E : Env} {F : List (Arc Key)} {m₀ m : Memory Key} {e : Edge} {slot : Three Addr}

namespace BSlot

section Own

/-- The S-CHTs of the `bSlot` have the property, if it has any. -/
def OnChts (Q : Three Addr → Prop) (b : BSlot Key) : Prop :=
  match b.body with
  | .inline _ _ => True
  | .chts slot => Q slot

theorem onChts_of_all {Q : Three Addr → Prop} (all : ∀ slot, Q slot) (b : BSlot Key) : b.OnChts Q := by
  obtain ⟨s, body⟩ := b
  cases body with
  | inline pt cells => trivial
  | chts slot => exact all slot

variable (E : Env) (F : List (Arc Key)) (m : Memory Key) (e : Edge) (b : BSlot Key)

/-- The edge is looked for on `sblacklist` only if no S-CHT has it. -/
def QueriesOwn : Prop := b.OnChts fun slot => querySlots E m slot e.dst = none → e.arc ∉ F

def InsertsOwn : Prop :=
  b.OnChts fun slot => querySlots E m slot e.dst = none → e.arc ∉ F ∧ Grows F m e.src slot

/-- There is no S-CHT, or a single one with a single item. -/
def Waning (m : Memory Key) (slot : Three Addr) : Prop :=
  slot.toList = [] ∨
    slot.toList.length = 1 ∧ ∃ a c, m.deref slot.s0 = some (a, c) ∧ c.num = 1

/-- Whether the `bSlot` is given up depends on there being entries of its source. -/
def DeletesOwn : Prop :=
  b.OnChts fun slot => (querySlots E m slot e.dst = none → e.arc ∉ F) ∧ (Waning m slot → Foreign F e.src)

/-- The successors in `sblacklist` are told by their source. -/
def ListsOwn (src : Key) : Prop := b.OnChts fun _ => Foreign F src

end Own

variable {b : BSlot Key} (shares : Shares F m₀ m)

section Query

theorem any_arc (absent : e.arc ∉ F) : ∀ d ∈ F, (d == e.arc) = false := by
  intro d hd
  by_contra same
  simp only [Bool.not_eq_false, beq_iff_eq] at same
  exact absent (same ▸ hd)

include shares

theorem querySlots_shares (dst : Key) : querySlots E m slot dst = querySlots E m₀ slot dst := by
  simp only [querySlots, shares.deref]

theorem query_shares (own : b.src = e.src → b.QueriesOwn E F m₀ e) : b.query E m e = b.query E m₀ e := by
  obtain ⟨s, body⟩ := b
  unfold query
  split
  · rfl
  · rename_i same
    have own := own (not_not.mp same).symm
    cases body with
    | inline pt cells => rfl
    | chts slot =>
        simp only [querySlots_shares shares]
        cases found : querySlots E m₀ slot e.dst with
        | some i => rfl
        | none => simp only [shares.list.any_clear (any_arc (own found))]

theorem successors_shares {src : Key} (own : b.ListsOwn F src) :
    b.successors E m src = b.successors E m₀ src := by
  obtain ⟨s, body⟩ := b
  cases body with
  | inline pt cells => rfl
  | chts slot => simp only [successors, scanChts, shares.heap, shares.own (show Foreign F src from own)]

end Query

section Insert

/-- The condition is about the S-CHTs and the list, not about the draws. -/
theorem InsertsOwn.draw {m₁ : Memory Key} (own : b.InsertsOwn E F m₀ e) (heap : m₁.heap = m₀.heap)
    (list : m₁.sblacklist = m₀.sblacklist) : b.InsertsOwn E F m₁ e := by
  obtain ⟨s, body⟩ := b
  cases m₀
  cases m₁
  subst heap list
  cases body with
  | inline pt cells => trivial
  | chts slot =>
      intro missing
      obtain ⟨absent, counted, opened⟩ := own missing
      exact ⟨absent, counted, opened⟩

include shares

theorem insert_shares (own : b.src = e.src → b.InsertsOwn E F m₀ e) :
    Agree F (b.insert E m₀ e.arc) (b.insert E m e.arc) := by
  obtain ⟨s, body⟩ := b
  cases body with
  | inline pt cells =>
      simp only [insert]
      split
      · exact ⟨shares, rfl⟩
      · split
        · exact ⟨shares, rfl⟩
        · exact shares.insertsInline E id pt cells e.dst
  | chts slot =>
      simp only [insert]
      split
      · exact ⟨shares, rfl⟩
      · rename_i same
        have same : s = e.src := not_not.mp same
        have own : querySlots E m₀ slot e.dst = none → e.arc ∉ F ∧ Grows F m₀ e.src slot := own same
        have asked : query E m ⟨s, .chts slot⟩ ⟨e.src, e.dst⟩ = query E m₀ ⟨s, .chts slot⟩ ⟨e.src, e.dst⟩ :=
          query_shares shares fun _ missing => (own missing).1
        simp only [Edge.arc, asked]
        by_cases seen : query E m₀ ⟨s, .chts slot⟩ ⟨e.src, e.dst⟩ = 0
        · have missing : querySlots E m₀ slot e.dst = none := by
            cases found : querySlots E m₀ slot e.dst with
            | none => rfl
            | some i =>
                simp only [query, same, ne_eq, not_true_eq_false, if_false, found] at seen
                omega
          obtain ⟨shared, equal⟩ := shares.inserts E (own missing).2 e.dst
          subst same
          simp only [seen, ne_eq, not_true_eq_false, if_false]
          exact ⟨shared, by simp only [equal]⟩
        · simp only [seen, ne_eq, not_false_eq_true, if_true]
          exact ⟨shares, rfl⟩

end Insert

section Delete

/-- The table which gives an item up counts one less. -/
theorem del_num {c c' : Cuckoo Key} {x : Key} (done : Cuckoo.del E c x = some c') : c'.num = c.num - 1 := by
  have lessens : ∀ flag, Cuckoo.delIn E c flag x = some c' → c'.num = c.num - 1 := by
    intro flag done
    obtain ⟨j, -, rfl⟩ := Option.map_eq_some_iff.mp done
    rfl
  unfold Cuckoo.del at done
  split at done
  · rename_i first
    cases done
    exact lessens true first
  · exact lessens false done

theorem query_of_del_none {c : Cuckoo Key} {x : Key} (missing : Cuckoo.del E c x = none) :
    Cuckoo.query E c x = false := by
  have unseen : ∀ flag, Cuckoo.delIn E c flag x = none →
      (c.bucketOf (chtCells E) flag x).cells.any (· == x) = false := by
    intro flag missing
    have absent := Option.map_eq_none_iff.mp missing
    simpa using List.findIdx?_eq_none_iff.mp absent
  unfold Cuckoo.del at missing
  split at missing
  · cases missing
  · rename_i first
    simp only [Cuckoo.query, unseen true first, unseen false missing, Bool.or_self]

/-- `bSlot::del` turns to `sblacklist` when `bSlot::query` does. -/
theorem querySlots_of_delSlots {x : Key} (missing : delSlots E m slot x = none) :
    querySlots E m slot x = none := by
  have each := List.findSome?_eq_none_iff.mp missing
  apply List.find?_eq_none.mpr
  intro i hi
  have here := each i hi
  cases found : m.deref (slot.get i) with
  | none => simp
  | some place =>
      obtain ⟨a, c⟩ := place
      simp only [found] at here
      simp [query_of_del_none (Option.map_eq_none_iff.mp here)]

/-- If the only table is empty after the deletion, it had one item. -/
theorem waning_of_delSlots {m' : Memory Key} {x : Key} {a : Addr} {c : Cuckoo Key}
    (done : delSlots E m slot x = some m') (single : slot.toList.length = 1)
    (live : m'.deref slot.s0 = some (a, c)) (zero : c.num = 0) : Waning m slot := by
  refine .inr ⟨single, ?_⟩
  obtain ⟨i, hi, here⟩ := List.exists_of_findSome?_eq_some done
  obtain ⟨s0, s1, s2⟩ := slot
  cases s0 with
  | none => cases live
  | some a0 =>
      obtain ⟨rfl, rfl⟩ : s1 = none ∧ s2 = none := by
        cases s1 <;> cases s2 <;> simp [Three.toList] at single ⊢
      simp only [List.mem_cons, List.not_mem_nil, or_false] at hi
      rcases hi with rfl | rfl | rfl
      · cases found : m.deref (some a0) with
        | none => simp [Three.get, found] at here
        | some place =>
            obtain ⟨a1, c1⟩ := place
            obtain ⟨b, before, same⟩ := Option.map_eq_some_iff.mp found
            cases same
            simp only [Three.get, found, Option.map_eq_some_iff] at here
            obtain ⟨c2, gone, rfl⟩ := here
            simp only [Memory.deref, Option.bind_some, Heap.get_set_self before, Option.map_some,
              Option.some.injEq, Prod.mk.injEq] at live
            obtain ⟨-, rfl⟩ := live
            have lessened := del_num gone
            exact ⟨a0, c1, rfl, by omega⟩
      · simp [Three.get, Memory.deref] at here
      · simp [Three.get, Memory.deref] at here

include shares

theorem delSlots_shares (slot : Three Addr) (x : Key) :
    Option.Rel (Shares F) (delSlots E m₀ slot x) (delSlots E m slot x) := by
  simp only [delSlots, shares.deref, shares.heap]
  induction [0, 1, 2] with
  | nil => exact .none
  | cons i rest ih =>
      rw [List.findSome?_cons, List.findSome?_cons]
      cases m₀.deref (slot.get i) with
      | none => exact ih
      | some place =>
          obtain ⟨a, c⟩ := place
          dsimp only
          cases Cuckoo.del E c x with
          | none => exact ih
          | some c' => exact .some ⟨rfl, shares.rands, shares.fault, shares.list⟩

theorem contract_shares {src : Key} (clear : ∀ a c, slot.toList.length = 1 → m₀.deref slot.s0 = some (a, c) →
    c.num = 0 → Foreign F src) : Agree F (contract E m₀ b slot src) (contract E m b slot src) := by
  unfold contract
  split
  · rename_i single
    rw [shares.deref]
    split
    · exact ⟨shares.crash, rfl⟩
    · rename_i a0 c0 live
      split
      · rename_i zero
        simp only [shares.any (clear a0 c0 single live zero), shares.heap]
        split
        · exact ⟨⟨rfl, shares.rands, shares.fault, shares.list⟩, rfl⟩
        · exact ⟨⟨rfl, shares.rands, shares.fault, shares.list⟩, rfl⟩
      · split
        · simp only [compressSlot, shares.heap, shares.rands]
          exact ⟨(shares.update _ _).deny _, rfl⟩
        · exact ⟨shares, rfl⟩
  · rw [shares.deref, shares.deref]
    split
    · split
      · simp only [shares.heap]
        exact ⟨⟨rfl, shares.rands, shares.fault, shares.list⟩, rfl⟩
      · split
        · simp only [shares.heap, shares.rands]
          exact ⟨(shares.update _ _).deny _, rfl⟩
        · exact ⟨shares, rfl⟩
    · exact ⟨shares.crash, rfl⟩
  · rw [shares.deref, shares.deref, shares.deref]
    split
    · simp only [shares.heap, shares.rands]
      split
      all_goals
        split
        · exact ⟨shares.update _ _, rfl⟩
        · split
          · exact ⟨(shares.update _ _).deny _, rfl⟩
          · exact ⟨shares, rfl⟩
    · exact ⟨shares.crash, rfl⟩
  · exact ⟨shares, rfl⟩

theorem del_shares (own : b.src = e.src → b.DeletesOwn E F m₀ e) :
    Agree F (b.del E m₀ e) (b.del E m e) := by
  obtain ⟨s, body⟩ := b
  unfold del
  split
  · exact ⟨shares, rfl⟩
  · rename_i same
    have own := own (not_not.mp same)
    cases body with
    | inline pt cells =>
        dsimp only
        split
        · exact ⟨shares, rfl⟩
        · split
          · split
            · exact ⟨shares, rfl⟩
            · exact ⟨shares, rfl⟩
          · exact ⟨shares, rfl⟩
    | chts slot =>
        obtain ⟨asked, waning⟩ : (querySlots E m₀ slot e.dst = none → e.arc ∉ F) ∧
          (Waning m₀ slot → Foreign F e.src) := own
        have met := delSlots_shares (E := E) shares slot e.dst
        generalize deleted : delSlots E m₀ slot e.dst = r at met
        generalize deleted' : delSlots E m slot e.dst = r' at met
        cases met with
        | some shared =>
            simp only [deleted, deleted']
            apply contract_shares shared
            intro a c single live zero
            exact waning (waning_of_delSlots deleted single live zero)
        | none =>
            simp only [deleted, deleted']
            have absent := any_arc (asked (querySlots_of_delSlots deleted))
            have dropped := shares.list.drop_clear absent
            rw [shares.list.any_clear absent]
            split
            · refine ⟨⟨shares.heap, shares.rands, shares.fault, dropped⟩, ?_⟩
              by_cases empty : slot.toList = []
              · have clear := waning (.inl empty)
                simp only [dropped.any_clear (Shares.beq_clear clear)]
              · simp only [empty, if_false, ite_self]
            · exact ⟨shares, rfl⟩

end Delete

end BSlot

namespace Holemerge

variable {h : Holemerge Key} {src : Key} (shares : Shares F m₀ m)

include shares

section Reads

theorem query_agree (keeps : h.Keeps fun s => s.src = e.src → s.QueriesOwn E F m₀ e) :
    h.query E m e = h.query E m₀ e :=
  ask_congr keeps fun _ own _ => BSlot.query_shares shares own

variable (keeps : h.Keeps fun s => s.src = src → s.ListsOwn F src)

include keeps

theorem querySuccessor_agree (buf : Buffer) (U : Nat) :
    h.querySuccessor E m src buf U = h.querySuccessor E m₀ src buf U := by
  unfold querySuccessor
  cases found : h.findSlot E src with
  | none => rfl
  | some s =>
      obtain ⟨own, same⟩ := findSlot_keeps keeps found
      simp only [BSlot.successors_shares shares (own same)]

theorem getNeighbors_agree : h.getNeighbors E m src = h.getNeighbors E m₀ src := by
  unfold getNeighbors
  cases found : h.findSlot E src with
  | none => rfl
  | some s =>
      obtain ⟨own, same⟩ := findSlot_keeps keeps found
      simp only [BSlot.successors_shares shares (own same)]

end Reads

section Writes

theorem insert_agree (keeps : h.Keeps fun s => s.src = e.src → s.InsertsOwn E F m₀ e) :
    Agree F (insert E m₀ h e) (insert E m h e) := by
  have src : e.arc.src = e.src := rfl
  unfold insert insertArc
  rw [src]
  cases found : h.locate E e.src with
  | none =>
      apply place_agree (P := fun s => s.src = e.src → s.InsertsOwn E F m₀ e) _ shares keeps
      intro m₁ m s heap list shared own
      apply BSlot.insert_shares shared
      intro same
      exact (own same).draw heap list
  | some place =>
      obtain ⟨loc, s⟩ := place
      obtain ⟨own, same⟩ := locate_keeps keeps found
      have queries : s.QueriesOwn E F m₀ e := by
        obtain ⟨s, body⟩ := s
        cases body with
        | inline pt cells => trivial
        | chts slot => exact fun missing => (own same missing).1
      have asked : s.query E m e = s.query E m₀ e := BSlot.query_shares shares fun _ => queries
      obtain ⟨shared, equal⟩ := BSlot.insert_shares shares own
      have probed : s.query E m ⟨e.arc.src, e.arc.item⟩ = s.query E m₀ ⟨e.arc.src, e.arc.item⟩ := asked
      simp only [edgeOps, probed]
      by_cases sure : s.query E m₀ ⟨e.arc.src, e.arc.item⟩ = 0
      · simp only [sure, ne_eq, not_true_eq_false, decide_false, Bool.false_eq_true, if_false]
        exact ⟨shared, by simp only [equal]⟩
      · simp only [sure, ne_eq, not_false_eq_true, decide_true, if_true]
        exact ⟨shares, rfl⟩

/-- The contraction of the links does not touch `sblacklist`. -/
theorem contract_agree : Agree F (contract E m₀ h) (contract E m h) := by
  unfold contract
  simp only [shares.rands]
  split
  · split
    · exact ⟨shares.crash, rfl⟩
    · split
      · exact ⟨shares, rfl⟩
      · split
        · exact ⟨shares.draw _, rfl⟩
        · exact ⟨shares, rfl⟩
  · split
    · split
      · split
        · exact ⟨shares, rfl⟩
        · split
          · exact ⟨shares.draw _, rfl⟩
          · exact ⟨shares, rfl⟩
      · exact ⟨shares.crash, rfl⟩
    · split
      · split
        · split
          all_goals
            split
            · exact ⟨shares, rfl⟩
            · split
              · exact ⟨shares.draw _, rfl⟩
              · exact ⟨shares, rfl⟩
        · exact ⟨shares.crash, rfl⟩
      · exact ⟨shares, rfl⟩

theorem mainDel_agree (keeps : h.Keeps fun s => s.src = e.src → s.DeletesOwn E F m₀ e) :
    Agree F (mainDel E m₀ h e) (mainDel E m h e) := by
  unfold mainDel
  cases found : h.locate E e.src with
  | none => exact ⟨shares, rfl⟩
  | some place =>
      obtain ⟨loc, s⟩ := place
      obtain ⟨own, same⟩ := locate_keeps keeps found
      obtain ⟨shared, equal⟩ := BSlot.del_shares shares own
      cases loc with
      | link i flag ha j =>
          simp only [equal]
          split
          · exact ⟨shared, rfl⟩
          · split
            · obtain ⟨contracted, after⟩ := contract_agree (E := E)
                (h := (h.setAt E (.link i flag ha j) (s.del E m₀ e).2.1).uncount i) shared
              exact ⟨contracted, by simp only [after]⟩
            · exact ⟨shared, rfl⟩
      | denied j =>
          simp only [equal]
          split
          · exact ⟨shared, rfl⟩
          · split
            · exact ⟨shared, rfl⟩
            · exact ⟨shared, rfl⟩

theorem redrawSlot_agree : Agree F (redrawSlot E m₀ h) (redrawSlot E m h) := by
  unfold redrawSlot
  simp only [shares.rands]
  split
  · split
    · exact ⟨shares.draw _, rfl⟩
    · exact ⟨shares, rfl⟩
  · exact ⟨shares, rfl⟩

theorem drainSlots_agree (fuel : Nat) : Option.Rel (Agree F) (drainSlots E fuel m₀ h) (drainSlots E fuel m h) := by
  apply Loop.run_rel
  · rintro ⟨m₀, h₀⟩ ⟨m, h⟩ ⟨-, same⟩
    subst same
    rfl
  · rintro ⟨m₀, h₀⟩ ⟨m, h⟩ ⟨shares, same⟩
    subst same
    exact redrawSlot_agree shares
  · exact ⟨shares, rfl⟩

/-- `post_del` takes entries from the front of the list, whosever they are: either
    there are none of others, or the list is short. -/
theorem postDel_agree (short : F = [] ∨ m₀.sblacklist.length + F.length ≤ sbl) (fuel : Nat) :
    Option.Rel (Agree F) (postDel E fuel m₀ h) (postDel E fuel m h) := by
  unfold postDel
  rcases short with alone | short
  · subst alone
    have same : m = m₀ := by
      obtain ⟨heap, rands, fault, list⟩ := shares
      cases m
      simp only at heap rands fault
      subst heap rands fault
      exact congrArg (Memory.mk _ · _ _) list.eq_left
    rw [same]
    cases drained : drainEdges E fuel m₀ h with
    | none => exact .none
    | some s => exact drainSlots_agree ⟨rfl, rfl, rfl, .refl_left _⟩ fuel
  · have length := shares.list.length
    have stop₀ : edgesOver (m₀, h) = false := by
      simp only [edgesOver, decide_eq_false_iff_not]
      omega
    have stop : edgesOver (m, h) = false := by
      simp only [edgesOver, decide_eq_false_iff_not]
      omega
    rw [drainEdges, drainEdges, Loop.run_of_stop stop₀, Loop.run_of_stop stop]
    exact drainSlots_agree shares fuel

theorem del_agree (keeps : h.Keeps fun s => s.src = e.src → s.DeletesOwn E F m₀ e)
    (short : F = [] ∨ (mainDel E m₀ h e).1.sblacklist.length + F.length ≤ sbl) (fuel : Nat) :
    Option.Rel (Agree F) (del E fuel m₀ h e) (del E fuel m h e) := by
  obtain ⟨shared, equal⟩ := mainDel_agree (E := E) (h := h) (e := e) shares keeps
  have after := postDel_agree (E := E) (h := (mainDel E m₀ h e).2.1) shared short fuel
  unfold del
  simp only [equal]
  generalize postDel E fuel (mainDel E m₀ h e).1 (mainDel E m₀ h e).2.1 = r at after
  generalize postDel E fuel (mainDel E m h e).1 (mainDel E m₀ h e).2.1 = r' at after
  cases after with
  | none => exact .none
  | some agree => exact .some ⟨agree.1, by simp only [agree.2]⟩

end Writes

end Holemerge

end CuckooGraph
