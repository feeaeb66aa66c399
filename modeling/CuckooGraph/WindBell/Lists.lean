import CuckooGraph.WindBell

/-! # The lists of the cells

Putting a node in front of a list and taking the last one out keep all lists
consistent. A node which is not the first has the right backward pointer; the
first may have any.
-/

namespace CuckooGraph

open TwoLayer Linked

namespace WindBell

variable {ω : Type}

/-- What a node holds apart from its pointers. -/
def item (h : Heap (Chain ω)) (a : Addr) : Option (Edge × ω) := (h.get a).map fun n => (n.edge, n.weight)

theorem item_set {h : Heap (Chain ω)} {a : Addr} {n m : Chain ω} (live : h.get a = some n)
    (edge : m.edge = n.edge) (weight : m.weight = n.weight) : item (h.set a m) = item h := by
  funext b
  by_cases same : b = a
  · subst same
    simp only [item, Heap.get_set_self live, live, Option.map_some, edge, weight]
  · simp only [item, Heap.get_set_ne same]

namespace Chandelier

/-- The list of a cell. -/
abbrev Listed (c : Chandelier ω) (p : Place) (as : List Addr) : Prop :=
  DList Chain.pointerChand Chain.pointerChandRe c.heap (c.pointerHead p) (c.pointerTail p) as

section Equations

variable {c : Chandelier ω} {p : Place} {a : Addr} {n : Chain ω}

theorem linkFront_none (head : c.pointerHead p = none) : c.linkFront p a n =
    { c with heap := c.heap.set a { n with pointerChand := c.pointerHead p },
             pointerTail := Function.update c.pointerTail p (some a),
             pointerHead := Function.update c.pointerHead p (some a),
             counter := Function.update c.counter p (c.counter p + 1) } := by
  simp only [linkFront, head]

theorem linkFront_some {b : Addr} {m : Chain ω} (head : c.pointerHead p = some b)
    (live : (c.heap.set a { n with pointerChand := c.pointerHead p }).get b = some m) : c.linkFront p a n =
    { c with heap := (c.heap.set a { n with pointerChand := c.pointerHead p }).set b
                       { m with pointerChandRe := some a },
             pointerHead := Function.update c.pointerHead p (some a),
             counter := Function.update c.counter p (c.counter p + 1) } := by
  simp only [linkFront, head] at live ⊢
  simp only [live]

/-- With a node before the last one. -/
theorem evict_some {t q : Addr} {m : Chain ω} (tail : c.pointerTail p = some t) (live : c.heap.get t = some n)
    (back : n.pointerChandRe = some q) (before : c.heap.get q = some m) : c.evict p =
    ({ c with heap := c.heap.set q { m with pointerChand := none },
              pointerTail := Function.update c.pointerTail p (some q),
              counter := Function.update c.counter p (c.counter p - 1) },
      ((c.heap.set q { m with pointerChand := none }).get t).map (t, ·)) := by
  simp only [evict, tail, live, back, before]

end Equations

/-- The lists of all cells, no node being in two of them. -/
structure Consistent (c : Chandelier ω) (lists : Place → List Addr) : Prop where
  listed : ∀ p, c.Listed p (lists p)
  count : ∀ p, c.counter p = (lists p).length
  apart : ∀ p q a, a ∈ lists p → a ∈ lists q → p = q

/-- A node in some list. -/
def Held (lists : Place → List Addr) (a : Addr) : Prop := ∃ p, a ∈ lists p

variable {c : Chandelier ω} {lists : Place → List Addr} {p : Place} {a : Addr} {n : Chain ω}

theorem consistent_cleared (len : Nat) : (cleared len : Chandelier ω).Consistent fun _ => [] :=
  ⟨fun _ => DList.nil, fun _ => rfl, fun _ _ _ inside => absurd inside List.not_mem_nil⟩

namespace Consistent

variable (k : c.Consistent lists)

include k

theorem live {p : Place} {a : Addr} (ha : a ∈ lists p) : ∃ n, c.heap.get a = some n :=
  (k.listed p).path.live a ha

theorem nodup (p : Place) : (lists p).Nodup := (k.listed p).path.nodup

/-- No node of a list is in one that has been exchanged elsewhere. -/
theorem apart_update {as : List Addr} (fresh : ∀ a ∈ as, a ∈ lists p ∨ ¬ Held lists a) (q r : Place)
    (b : Addr) (hq : b ∈ Function.update lists p as q) (hr : b ∈ Function.update lists p as r) : q = r := by
  have mine : ∀ s, s ≠ p → b ∈ lists s → b ∈ as → False := fun s other there here =>
    (fresh b here).elim (fun inside => other (k.apart s p b there inside)) fun free => free ⟨s, there⟩
  by_cases left : q = p <;> by_cases right : r = p
  · rw [left, right]
  · subst left
    rw [Function.update_self] at hq
    rw [Function.update_of_ne right] at hr
    exact (mine r right hr hq).elim
  · subst right
    rw [Function.update_self] at hr
    rw [Function.update_of_ne left] at hq
    exact (mine q left hq hr).elim
  · rw [Function.update_of_ne left] at hq
    rw [Function.update_of_ne right] at hr
    exact k.apart q r b hq hr

/-- One list is exchanged. -/
theorem exchange {c' : Chandelier ω} {as : List Addr} (here : c'.Listed p as) (count : c'.counter p = as.length)
    (others : ∀ q, q ≠ p → c'.pointerHead q = c.pointerHead q ∧ c'.pointerTail q = c.pointerTail q ∧
      c'.counter q = c.counter q)
    (kept : ∀ q, q ≠ p → ∀ b ∈ lists q, Agrees Chain.pointerChand c.heap c'.heap b ∧
      Agrees Chain.pointerChandRe c.heap c'.heap b)
    (fresh : ∀ a ∈ as, a ∈ lists p ∨ ¬ Held lists a) : c'.Consistent (Function.update lists p as) := by
  refine ⟨fun q => ?_, fun q => ?_, k.apart_update fresh⟩
  · by_cases same : q = p
    · subst same
      rwa [Function.update_self]
    · obtain ⟨head, tail, -⟩ := others q same
      rw [Function.update_of_ne same, Listed, head, tail]
      exact (k.listed q).frame (fun b hb => (kept q same b hb).1)
        fun b hb => (kept q same b (List.mem_of_mem_tail hb)).2
  · by_cases same : q = p
    · subst same
      rwa [Function.update_self]
    · rw [Function.update_of_ne same, (others q same).2.2, k.count q]

/-- A node is put in front of the list of a cell. -/
theorem linkFront (free : ¬ Held lists a) (live : c.heap.get a = some n) :
    let c' := c.linkFront p a n
    c'.Consistent (Function.update lists p (a :: lists p)) ∧ item c'.heap = item c.heap ∧
      c'.len = c.len ∧ c'.fault = c.fault := by
  obtain ⟨h1, first⟩ : ∃ h1, h1 = c.heap.set a { n with pointerChand := c.pointerHead p } := ⟨_, rfl⟩
  have items : item h1 = item c.heap := first ▸ item_set live rfl rfl
  have ne : ∀ {q b}, b ∈ lists q → b ≠ a := fun hb same => free ⟨_, same ▸ hb⟩
  have here : h1.get a = some { n with pointerChand := c.pointerHead p } := first ▸ Heap.get_set_self live
  have forward : ∀ {q b}, b ∈ lists q → Agrees Chain.pointerChand c.heap h1 b :=
    fun hb => first ▸ .set_ne (ne hb)
  have backward : ∀ b, Agrees Chain.pointerChandRe c.heap h1 b := fun b => first ▸ .set live rfl
  have fresh : ∀ b ∈ a :: lists p, b ∈ lists p ∨ ¬ Held lists b := by
    intro b hb
    rcases List.mem_cons.mp hb with rfl | hb
    · exact .inr free
    · exact .inl hb
  have list := k.listed p
  have count : c.counter p + 1 = (a :: lists p).length := by
    rw [k.count p, List.length_cons]
    rfl
  cases head : c.pointerHead p with
  | none =>
      rw [linkFront_none head, ← first]
      refine ⟨k.exchange ?_ (by simpa using count) (fun q other => by simp [other])
        (fun q _ b hb => ⟨forward hb, backward b⟩) fresh, items, rfl, rfl⟩
      have pushed := list.push here rfl (by simp [head]) (fun b hb => forward hb) fun b _ => backward b
      simpa only [Listed, Function.update_self, head, if_true] using pushed
  | some b =>
      rw [Listed, head] at list
      obtain ⟨rest, whole⟩ := list.head_cons
      have hb : b ∈ lists p := whole ▸ List.mem_cons_self
      obtain ⟨m, liveB⟩ := k.live hb
      have liveB : h1.get b = some m := first ▸ (Heap.get_set_ne (ne hb)).trans liveB
      obtain ⟨h2, second⟩ : ∃ h2, h2 = h1.set b { m with pointerChandRe := some a } := ⟨_, rfl⟩
      rw [linkFront_some head (first ▸ liveB), ← first, ← second]
      have forward : ∀ {r x}, x ∈ lists r → Agrees Chain.pointerChand c.heap h2 x :=
        fun hx => (forward hx).trans (second ▸ .set liveB rfl)
      have backward : ∀ {x}, x ≠ b → Agrees Chain.pointerChandRe c.heap h2 x :=
        fun other => (backward _).trans (second ▸ .set_ne other)
      have behind : ∀ x ∈ (lists p).tail, x ≠ b := by
        have nodup := k.nodup p
        rw [whole] at nodup ⊢
        exact fun x hx same => (List.nodup_cons.mp nodup).1 (same ▸ hx)
      have items : item h2 = item c.heap := by
        rw [second, item_set (m := { m with pointerChandRe := some a }) liveB rfl rfl, items]
      refine ⟨k.exchange ?_ (by simpa using count) (fun q other => by simp [other]) (fun q other x hx =>
        ⟨forward hx, backward fun same => other (k.apart q p b (same ▸ hx) hb)⟩) fresh, items, rfl, rfl⟩
      have still : h2.get a = _ := second ▸ (Heap.get_set_ne (ne hb).symm).trans here
      have pushed := (k.listed p).push still rfl (fun x hx => ?_) (fun x hx => forward hx)
        fun x hx => backward (behind x hx)
      · simpa only [Listed, Function.update_self, head, reduceCtorEq, if_false] using pushed
      · obtain rfl := Option.some.inj (head.symm.trans hx)
        exact ⟨_, second ▸ Heap.get_set_self liveB, rfl⟩

/-- The last node of a cell with two nodes at least is taken out. -/
theorem evict {q t : Addr} {init : List Addr} (long : lists p = init ++ [q, t]) :
    ∃ n, c.heap.get t = some n ∧ ∃ c', c.evict p = (c', some (t, n)) ∧ c'.heap.get t = some n ∧
      c'.Consistent (Function.update lists p (init ++ [q])) ∧ item c'.heap = item c.heap ∧
      c'.len = c.len ∧ c'.fault = c.fault := by
  have list := k.listed p
  have nodup := k.nodup p
  rw [long] at list nodup
  have tail : c.pointerTail p = some t := list.last t (by simp)
  obtain ⟨n, live, back⟩ := list.backed.pair
  obtain ⟨m, before, -, -⟩ := list.path.split_at
  have ne : t ≠ q := by
    rintro rfl
    simp [List.nodup_append] at nodup
  have live' : (c.heap.set q { m with pointerChand := none }).get t = some n :=
    (Heap.get_set_ne ne).trans live
  have taken := evict_some tail live back before
  rw [live', Option.map_some] at taken
  refine ⟨n, live, _, taken, live', ?_, item_set before rfl rfl, rfl, rfl⟩
  refine k.exchange ?_ ?_ (fun r other => by simp [other]) (fun r other b hb => ?_) fun b hb => .inl ?_
  · have popped := list.pop (n := { m with pointerChand := none }) (Heap.get_set_self before) rfl
      (fun b hb => .set_ne fun same => ?_) fun b _ => .set before rfl
    · simpa only [Listed, Function.update_self] using popped
    · simp only [List.nodup_append] at nodup
      exact nodup.2.2 b hb q List.mem_cons_self same
  · simp only [Function.update_self, k.count p, long, List.length_append, List.length_cons, List.length_nil]
    omega
  · refine ⟨.set_ne fun same => other (k.apart r p b hb ?_), .set before rfl⟩
    simp [long, same]
  · rw [long]
    simp only [List.mem_append, List.mem_cons] at hb ⊢
    exact hb.imp_right fun last => .inl (by simpa using last)

end Consistent

end Chandelier

end WindBell

end CuckooGraph
