import CuckooGraph.Gss.Nodes

/-! # The lists of `buffer`

`index` leads from a node to its list, and each list has one element for each node
which it leads to. The first element is for the node itself: it is there with
weight 0 when nothing has been added to it.
-/

namespace CuckooGraph.Gss

section Lookup

variable {l : List (Nat × Nat)} {k v : Nat}

theorem lookup_iff (nodup : (l.map Prod.fst).Nodup) : l.lookup k = some v ↔ (k, v) ∈ l := by
  induction l with
  | nil => simp
  | cons e l ih =>
      obtain ⟨new, rest⟩ := List.nodup_cons.mp (by simpa only [List.map_cons] using nodup)
      cases e with
      | mk k' v' =>
          by_cases same : k = k'
          · subst same
            have away : (k, v) ∉ l := fun here => new (List.mem_map.mpr ⟨_, here, rfl⟩)
            simp [List.lookup_cons_self, away, eq_comm]
          · have other : (k == k') = false := by simpa using same
            rw [List.lookup_cons, other]
            simp [ih rest, same]

theorem lookup_none (nodup : (l.map Prod.fst).Nodup) : l.lookup k = none ↔ k ∉ l.map Prod.fst := by
  rw [Option.eq_none_iff_forall_ne_some]
  simp only [Ne, lookup_iff nodup, List.mem_map, not_exists, not_and]
  refine ⟨fun away e he same => away e.2 (same ▸ he), fun away v here => away _ here rfl⟩

end Lookup

/-- The weight which a list has for a key. -/
def weightAt (l : List Linknode) (k : Nat) : Option (BitVec 16) :=
  (l.find? fun node => node.key = k).map Linknode.weight

section List

variable {l : List Linknode} {k k2 : Nat} {weight : Int} {v : BitVec 16}

theorem weightAt_cons (node : Linknode) (l : List Linknode) (k : Nat) :
    weightAt (node :: l) k = if node.key = k then some node.weight else weightAt l k := by
  rw [weightAt, List.find?_cons]
  by_cases here : node.key = k <;> simp [here, weightAt]

theorem weightAt_iff (nodup : (l.map Linknode.key).Nodup) : weightAt l k = some v ↔ ⟨k, v⟩ ∈ l := by
  induction l with
  | nil => simp [weightAt]
  | cons node l ih =>
      obtain ⟨new, rest⟩ := List.nodup_cons.mp (by simpa only [List.map_cons] using nodup)
      rw [weightAt_cons]
      cases node with
      | mk k' v' =>
          by_cases here : k' = k
          · subst here
            have away : (⟨k', v⟩ : Linknode) ∉ l := fun there => new (List.mem_map.mpr ⟨_, there, rfl⟩)
            simp [away, eq_comm]
          · simp [here, Ne.symm here, ih rest]

theorem weightAt_linkNext (l : List Linknode) (k2 : Nat) (weight : Int) (k : Nat) :
    weightAt (linkNext k2 weight l).1 k =
      if k = k2 then some ((weightAt l k2).getD 0 + BitVec.ofInt 16 weight) else weightAt l k := by
  induction l with
  | nil =>
      rw [linkNext, weightAt_cons]
      by_cases here : k = k2
      · simp [weightAt, here]
      · simp [weightAt, here, Ne.symm here]
  | cons node l ih =>
      unfold linkNext
      by_cases here : node.key = k2
      · rw [if_pos here, weightAt_cons, weightAt_cons, weightAt_cons]
        by_cases same : k = k2
        · subst same
          simp [here, plus_eq]
        · simp [here, same, Ne.symm same]
      · rw [if_neg here, weightAt_cons, ih, weightAt_cons, weightAt_cons, if_neg here]
        by_cases same : node.key = k
        · have other : k ≠ k2 := same ▸ here
          simp [same, other]
        · simp [same]

theorem linkNext_keys (l : List Linknode) (k2 : Nat) (weight : Int) :
    (linkNext k2 weight l).1.map Linknode.key =
      if k2 ∈ l.map Linknode.key then l.map Linknode.key else l.map Linknode.key ++ [k2] := by
  induction l with
  | nil => rfl
  | cons node l ih =>
      unfold linkNext
      by_cases here : node.key = k2
      · simp [here]
      · rw [if_neg here, List.map_cons, ih]
        simp only [List.map_cons, List.mem_cons, Ne.symm here, false_or]
        split <;> rfl

end List

/-- A list of the node `k`. -/
structure Chain.Sound (P : Params) (k : Nat) (c : Chain) : Prop where
  head : c.head.key = k
  nodup : (c.next.map Linknode.key).Nodup
  other : ∀ node ∈ c.next, node.key ≠ k ∧ ∃ b : Node P, node.key = b.1.key P

/-- `index` has each place of `buffer` once. -/
structure Indexed (t : Gss) : Prop where
  keys : (t.index.map Prod.fst).Nodup
  tags : (t.index.map Prod.snd).Perm (List.range t.buffer.length)
  n : t.n = t.buffer.length

variable {P : Params} {t : Gss} {k k1 k2 tag : Nat} {c : Chain} {weight : Int}

/-- The list of a node which has none yet. -/
def Chain.blank (k1 : Nat) : Chain := ⟨⟨k1, 0⟩, []⟩

theorem Chain.new_eq (k1 k2 : Nat) (weight : Int) : Chain.new k1 k2 weight = (Chain.blank k1).link k2 weight := by
  unfold Chain.new Chain.link Chain.blank linkNext
  by_cases same : k1 = k2 <;> simp [same]

theorem Chain.sound_blank (k : Nat) : (Chain.blank k).Sound P k where
  head := rfl
  nodup := List.nodup_nil
  other := by intro node here; cases here

theorem Chain.Sound.link (sound : c.Sound P k) (b : Node P) (weight : Int) : (c.link (b.1.key P) weight).1.Sound P k := by
  unfold Chain.link
  by_cases self : c.head.key = b.1.key P
  · rw [if_pos self]
    exact ⟨sound.head, sound.nodup, sound.other⟩
  · rw [if_neg self]
    have keys := linkNext_keys c.next (b.1.key P) weight
    refine ⟨sound.head, ?_, fun node here => ?_⟩
    · simp only [keys]
      split
      · exact sound.nodup
      · rename_i new
        exact List.nodup_append.mpr ⟨sound.nodup, List.nodup_singleton _, fun x hx y hy same =>
          new (List.mem_singleton.mp hy ▸ same ▸ hx)⟩
    · have member : node.key = b.1.key P ∨ node.key ∈ c.next.map Linknode.key := by
        have this : node.key ∈ _ := List.mem_map_of_mem here
        rw [keys] at this
        split at this
        · exact .inr this
        · exact (List.mem_append.mp this).symm.imp_left List.mem_singleton.mp
      rcases member with same | old
      · exact ⟨fun mine => self (sound.head.trans (mine.symm.trans same)), b, same⟩
      · obtain ⟨node', there, same⟩ := List.mem_map.mp old
        rw [← same]
        exact sound.other node' there

/-- `link` adds to the weight of one node. -/
theorem Chain.link_next (c : Chain) (k2 k : Nat) (weight : Int) (away : k ≠ c.head.key) :
    weightAt (c.link k2 weight).1.next k =
      if k = k2 then some ((weightAt c.next k2).getD 0 + BitVec.ofInt 16 weight) else weightAt c.next k := by
  unfold Chain.link
  by_cases self : c.head.key = k2
  · have other : k ≠ k2 := self ▸ away
    rw [if_pos self, if_neg other]
  · rw [if_neg self]
    exact weightAt_linkNext c.next k2 weight k

theorem Chain.link_head (c : Chain) (k2 : Nat) (weight : Int) :
    (c.link k2 weight).1.head.weight =
      if c.head.key = k2 then c.head.weight + BitVec.ofInt 16 weight else c.head.weight := by
  unfold Chain.link
  split
  · exact plus_eq _ _
  · rfl

namespace Indexed

theorem tag_lt (ok : t.Indexed) {e : Nat × Nat} (he : e ∈ t.index) : e.2 < t.buffer.length :=
  List.mem_range.mp (ok.tags.mem_iff.mp (List.mem_map_of_mem he))

/-- An entry leads to the list of its key. -/
theorem chain_eq (ok : t.Indexed) {e : Nat × Nat} (he : e ∈ t.index) : t.chain e.1 = t.buffer[e.2]? := by
  have found : t.index.lookup e.1 = some e.2 := (lookup_iff ok.keys).mpr he
  rw [chain, found, Option.bind_some]

theorem chain_none (ok : t.Indexed) : t.chain k = none ↔ k ∉ t.index.map Prod.fst := by
  rw [← lookup_none ok.keys, chain]
  cases found : t.index.lookup k with
  | none => simp
  | some tag =>
      have inside := ok.tag_lt ((lookup_iff ok.keys).mp found)
      simp [inside]

/-- `insert` changes the list of one node, which is new if the node had none. -/
theorem insertBuffer (ok : t.Indexed) (k1 k2 : Nat) (weight : Int) : (t.insertBuffer k1 k2 weight).Indexed ∧
    ∀ k, (t.insertBuffer k1 k2 weight).chain k =
      if k = k1 then some (((t.chain k1).getD (Chain.blank k1)).link k2 weight).1 else t.chain k := by
  unfold Gss.insertBuffer
  cases found : t.index.lookup k1 with
  | some tag =>
      have entry := (lookup_iff ok.keys).mp found
      have inside := ok.tag_lt entry
      have here : t.chain k1 = some t.buffer[tag] := by rw [chain, found, Option.bind_some, List.getElem?_eq_getElem inside]
      simp only [List.getElem?_eq_getElem inside]
      refine ⟨⟨ok.keys, by simpa using ok.tags, by simpa using ok.n⟩, fun k => ?_⟩
      by_cases same : k = k1
      · rw [if_pos same, same, here, chain, found, Option.bind_some, List.getElem?_set_self inside]
        rfl
      · rw [if_neg same, chain, chain]
        cases other : t.index.lookup k with
        | none => rfl
        | some tag' =>
            -- the tags of different nodes differ
            have apart : tag ≠ tag' := by
              rintro rfl
              have once := ok.tags.nodup_iff.mpr List.nodup_range
              exact same (congrArg Prod.fst (List.inj_on_of_nodup_map once ((lookup_iff ok.keys).mp other) entry rfl))
            rw [Option.bind_some, Option.bind_some, List.getElem?_set_ne apart]
  | none =>
      have new := (lookup_none ok.keys).mp found
      have here : t.chain k1 = none := ok.chain_none.mpr new
      have perm := List.perm_orderedInsert (fun e e' : Nat × Nat => e.1 ≤ e'.1) (k1, t.n) t.index
      have keys : ((t.index.orderedInsert (fun e e' => e.1 ≤ e'.1) (k1, t.n)).map Prod.fst).Nodup := by
        rw [(perm.map Prod.fst).nodup_iff, List.map_cons]
        exact List.nodup_cons.mpr ⟨new, ok.keys⟩
      simp only
      refine ⟨⟨keys, ?_, by simp [ok.n]⟩, fun k => ?_⟩
      · refine (perm.map Prod.snd).trans ?_
        rw [List.map_cons, List.length_append, List.length_singleton, List.range_succ, ok.n]
        exact (ok.tags.cons _).trans (List.perm_append_singleton _ _).symm
      · rw [chain]
        by_cases same : k = k1
        · have there : (t.index.orderedInsert (fun e e' => e.1 ≤ e'.1) (k1, t.n)).lookup k1 = some t.n :=
            (lookup_iff keys).mpr (perm.mem_iff.mpr List.mem_cons_self)
          rw [if_pos same, same, there, here, Option.bind_some, ok.n, List.getElem?_concat_length, Chain.new_eq]
          rfl
        · rw [if_neg same, chain]
          have kept : (t.index.orderedInsert (fun e e' => e.1 ≤ e'.1) (k1, t.n)).lookup k = t.index.lookup k := by
            refine Option.ext fun tag => ?_
            rw [lookup_iff keys, lookup_iff ok.keys, perm.mem_iff, List.mem_cons]
            simp [same]
          rw [kept]
          cases other : t.index.lookup k with
          | none => rfl
          | some tag =>
              have inside := ok.tag_lt ((lookup_iff ok.keys).mp other)
              rw [Option.bind_some, Option.bind_some, List.getElem?_append_left inside]

end Indexed

end CuckooGraph.Gss
