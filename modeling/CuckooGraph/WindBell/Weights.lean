import CuckooGraph.WindBell.Insert

/-! # Weights of the Wind-Bell matrix

Every insertion adds 1 to the weight of its edge: in the node which has it, or
in a new one.
-/

namespace CuckooGraph

open TwoLayer Linked

namespace WindBell

namespace Chandelier

variable {E : Env} {c : Chandelier UInt32} {lists : Place → List Addr} {e : Edge}

/-- Insertions into a fresh matrix. -/
def insertCalls (E : Env) (len : Nat) (calls : List Call) : Chandelier UInt32 :=
  calls.foldl (fun c x => c.insertWeight E x.1 x.2.1 x.2.2) (cleared len)

/-- How often an edge is inserted. -/
def times (calls : List Call) (e : Edge) : Nat := (calls.map Prod.fst).count e

theorem times_le (calls : List Call) (e : Edge) : times calls e ≤ calls.length :=
  List.count_le_length.trans_eq (List.length_map ..)

/-- The edges inserted are held, with the right weights. -/
structure Weighs (E : Env) (calls : List Call) (c : Chandelier UInt32) (lists : Place → List Addr) : Prop where
  sound : c.Sound E lists
  weight : ∀ a e w, Held lists a → item c.heap a = some (e, w) → w.toNat = times calls e
  held : ∀ e, 0 < times calls e → ∃ a w, Held lists a ∧ item c.heap a = some (e, w)

/-- The edges of `c'` are those of `c`, and `e`. -/
def Grown (c c' : Chandelier UInt32) (lists lists' : Place → List Addr) (e : Edge) : Prop :=
  ∀ a e' w, Held lists' a → item c'.heap a = some (e', w) → e' = e ∨ ∃ a w, Held lists a ∧ item c.heap a = some (e', w)

/-- The query reads the weight of the node. -/
theorem Weighs.query {calls : List Call} (weighs : Weighs E calls c lists) (low : c.Low) (e : Edge) :
    ∃ w, c.queryWeight E e = some w ∧ w.toNat = times calls e := by
  obtain ⟨r, found, some, nothing⟩ := seek_spec (e := e) weighs.sound.consistent weighs.sound.filed low
  cases r with
  | none =>
      refine ⟨0, by simp [queryWeight, found], ?_⟩
      by_contra wrong
      obtain ⟨a, w, ⟨p, ha⟩, has⟩ := weighs.held e (Nat.pos_of_ne_zero fun zero => wrong (by rw [zero]; rfl))
      exact nothing rfl p a ⟨ha, w, has⟩
  | some x =>
      obtain ⟨p, a⟩ := x
      obtain ⟨ha, w, has⟩ := some p a rfl
      obtain ⟨n, live, same⟩ : ∃ n, c.heap.get a = Option.some n ∧ (n.edge, n.weight) = (e, w) := by
        simpa [item] using has
      obtain ⟨-, rfl⟩ := Prod.mk.inj same
      exact ⟨n.weight, by simp [queryWeight, found, live], weighs.weight a e _ ⟨p, ha⟩ has⟩

theorem times_snoc (calls : List Call) (x : Call) (e : Edge) :
    times (calls ++ [x]) e = times calls e + if x.1 = e then 1 else 0 := by
  by_cases same : x.1 = e <;> simp [times, same]

/-- The edge is new. -/
theorem Weighs.add {calls : List Call} (weighs : Weighs E calls c lists) (low : c.Low) (x : Call)
    (new : ∀ p a, ¬ c.Found lists x.1 p a) :
    let c' := insertNew E 3 { c with heap := (c.heap.alloc ⟨x.1.src, x.1.dst, 1, x.2.1, x.2.2⟩).1 }
      (c.heap.alloc ⟨x.1.src, x.1.dst, 1, x.2.1, x.2.2⟩).2 ⟨x.1.src, x.1.dst, 1, x.2.1, x.2.2⟩
    ∃ lists', Weighs E (calls ++ [x]) c' lists' ∧ Grown c c' lists lists' x.1 := by
  intro c'
  have none : times calls x.1 = 0 := by
    by_contra some
    obtain ⟨a, w, ⟨p, ha⟩, has⟩ := weighs.held x.1 (Nat.pos_of_ne_zero some)
    exact new p a ⟨ha, w, has⟩
  obtain ⟨lists', added⟩ := weighs.sound.add low ⟨x.1.src, x.1.dst, 1, x.2.1, x.2.2⟩
    fun b w ⟨p, hb⟩ has => new p b ⟨hb, w, has⟩
  refine ⟨lists', ⟨added.sound, fun a e w ha has => ?_, fun e positive => ?_⟩, fun a e w ha has => ?_⟩
  · rw [times_snoc]
    rcases (added.held a).mp ha with rfl | ha
    · obtain ⟨rfl, rfl⟩ := Prod.mk.inj (Option.some.inj (added.here.symm.trans has))
      change _ = times calls x.1 + if x.1 = x.1 then 1 else 0
      rw [none, if_pos rfl]
      rfl
    · rw [added.items a ha] at has
      obtain ⟨p, hp⟩ := ha
      have other : x.1 ≠ e := fun same => new p a ⟨hp, w, same ▸ has⟩
      rw [if_neg other, add_zero, weighs.weight a e w ⟨p, hp⟩ has]
  · by_cases mine : x.1 = e
    · subst mine
      exact ⟨_, _, (added.held _).mpr (.inl rfl), added.here⟩
    · rw [times_snoc, if_neg mine, add_zero] at positive
      obtain ⟨a, w, ha, has⟩ := weighs.held e positive
      exact ⟨a, w, (added.held a).mpr (.inr ha), (added.items a ha).trans has⟩
  · cases (added.held a).mp ha with
    | inl mine =>
        subst mine
        exact .inl (Prod.mk.inj (Option.some.inj (has.symm.trans added.here))).1
    | inr ha => exact .inr ⟨a, w, ha, (added.items a ha).symm.trans has⟩

/-- The edge has a node, whose weight grows. -/
theorem Weighs.grow {calls : List Call} (weighs : Weighs E calls c lists) (x : Call) {p : Place} {b : Addr}
    (hb : b ∈ lists p) {m : Chain UInt32} (live : c.heap.get b = some m) (same : m.edge = x.1)
    (short : calls.length + 1 < 2 ^ 32) :
    let c' := { c with heap := c.heap.set b { m with weight := m.weight + 1 } }
    m.weight + 1 ≠ 0 ∧ Weighs E (calls ++ [x]) c' lists ∧ Grown c c' lists lists x.1 := by
  intro c'
  have mine : item c.heap b = some (x.1, m.weight) := by simp [item, live, same]
  have weight := weighs.weight b x.1 m.weight ⟨p, hb⟩ mine
  have bound := times_le calls x.1
  have next : (m.weight + 1).toNat = times calls x.1 + 1 := by
    rw [UInt32.toNat_add, weight]
    exact Nat.mod_eq_of_lt (by rw [UInt32.toNat_one]; omega)
  have here : item (c.heap.set b { m with weight := m.weight + 1 }) b = some (x.1, m.weight + 1) := by
    simp [item, Heap.get_set_self live, ← same, Chain.edge]
  have away : ∀ a, a ≠ b → item (c.heap.set b { m with weight := m.weight + 1 }) a = item c.heap a :=
    fun a other => by simp only [item, Heap.get_set_ne other]
  have kept : ∀ a e w, item c'.heap a = some (e, w) → ∃ w, item c.heap a = some (e, w) := by
    intro a e w has
    by_cases self : a = b
    · subst self
      obtain ⟨rfl, -⟩ := Prod.mk.inj (Option.some.inj (here.symm.trans has))
      exact ⟨_, mine⟩
    · exact ⟨w, (away a self).symm.trans has⟩
  refine ⟨fun zero => by simp [zero] at next, ⟨weighs.sound.heap (fun a _ => ⟨.set live rfl, .set live rfl⟩)
    (fun a e w _ has => kept a e w has), fun a e w ha has => ?_, fun e positive => ?_⟩, fun a e w ha has => ?_⟩
  · rw [times_snoc]
    by_cases self : a = b
    · subst self
      obtain ⟨rfl, rfl⟩ := Prod.mk.inj (Option.some.inj (here.symm.trans has))
      rw [if_pos rfl, next]
    · have has : item c.heap a = some (e, w) := (away a self).symm.trans has
      have other : x.1 ≠ e := fun equal =>
        self (weighs.sound.filed.once a b e w m.weight ha ⟨p, hb⟩ has (equal ▸ mine))
      rw [if_neg other, add_zero, weighs.weight a e w ha has]
  · by_cases equal : x.1 = e
    · subst equal
      exact ⟨b, _, ⟨p, hb⟩, here⟩
    · rw [times_snoc, if_neg equal, add_zero] at positive
      obtain ⟨a, w, ha, has⟩ := weighs.held e positive
      have other : a ≠ b := by
        rintro rfl
        exact equal (Prod.mk.inj (Option.some.inj (mine.symm.trans has))).1
      exact ⟨a, w, ha, (away a other).trans has⟩
  · obtain ⟨w, has⟩ := kept a e w has
    exact .inr ⟨a, w, ha, has⟩

/-- A node of its own for the caller changes nothing. -/
theorem Weighs.alloc {calls : List Call} (weighs : Weighs E calls c lists) (n : Chain UInt32) :
    Weighs E calls { c with heap := (c.heap.alloc n).1 } lists := by
  obtain ⟨sound, -, items⟩ := weighs.sound.alloc n
  refine ⟨sound, fun a e w ha has => weighs.weight a e w ha ((items a ha).symm.trans has), fun e positive => ?_⟩
  obtain ⟨a, w, ha, has⟩ := weighs.held e positive
  exact ⟨a, w, ha, (items a ha).trans has⟩

/-- One insertion. -/
theorem Weighs.step {calls : List Call} (weighs : Weighs E calls c lists) (low : c.Low) (x : Call)
    (short : calls.length + 1 < 2 ^ 32) :
    ∃ lists', Weighs E (calls ++ [x]) (c.insertWeight E x.1 x.2.1 x.2.2) lists' ∧
      Grown c (c.insertWeight E x.1 x.2.1 x.2.2) lists lists' x.1 := by
  have made := weighs.alloc ⟨x.1.src, x.1.dst, 1, x.2.1, x.2.2⟩
  obtain ⟨-, -, items⟩ := weighs.sound.alloc ⟨x.1.src, x.1.dst, 1, x.2.1, x.2.2⟩
  obtain ⟨r, found, some, nothing⟩ := seek_spec (e := x.1) made.sound.consistent made.sound.filed low
  rw [insertWeight]
  cases r with
  | none =>
      simp only [found]
      refine weighs.add low x fun p a here => nothing rfl p a ⟨here.1, ?_⟩
      obtain ⟨w, has⟩ := here.2
      exact ⟨w, (items a ⟨p, here.1⟩).trans has⟩
  | some y =>
      obtain ⟨p, b⟩ := y
      obtain ⟨hb, w, has⟩ := some p b rfl
      obtain ⟨m, live, same⟩ : ∃ m, (c.heap.alloc ⟨x.1.src, x.1.dst, 1, x.2.1, x.2.2⟩).1.get b = Option.some m ∧
          (m.edge, m.weight) = (x.1, w) := by
        simpa [item] using has
      obtain ⟨positive, weighs', grown⟩ := made.grow x hb live (Prod.mk.inj same).1 short
      simp only [found, live, if_neg positive]
      refine ⟨lists, weighs', fun a e w ha has => (grown a e w ha has).imp_right ?_⟩
      rintro ⟨a, w, ha, has⟩
      exact ⟨a, w, ha, (items a ha).symm.trans has⟩

theorem weighs_cleared (len : Nat) : Weighs E [] (cleared len) fun _ => [] where
  sound := sound_cleared len
  weight := by simp [Held]
  held := by simp [times]

theorem size_insertWeight (E : Env) (c : Chandelier UInt32) (e : Edge) (next prev : Option Addr) :
    (c.insertWeight E e next prev).size = (c.len, c.size.2 + 1) := by
  have made : ∀ n : Chain UInt32, size { c with heap := (c.heap.alloc n).1 } = (c.len, c.size.2 + 1) := by
    simp [size, Heap.alloc]
  simp only [insertWeight]
  split
  · exact made _
  · exact (size_insertNew ..).trans (made _)
  · split
    · exact made _
    · split
      · refine (size_insertNew ..).trans ?_
        simp [size, Heap.alloc, Heap.set]
      · simp [size, Heap.alloc, Heap.set]

theorem insertCalls_snoc (len : Nat) (calls : List Call) (x : Call) :
    insertCalls E len (calls ++ [x]) = (insertCalls E len calls).insertWeight E x.1 x.2.1 x.2.2 := by
  simp only [insertCalls, List.foldl_append, List.foldl_cons, List.foldl_nil]

theorem size_insertCalls (E : Env) (len : Nat) (calls : List Call) :
    (insertCalls E len calls).size = (len, calls.length) := by
  induction calls using List.reverseRecOn with
  | nil => rfl
  | append_singleton calls x ih =>
      rw [insertCalls_snoc, size_insertWeight, ih, List.length_append, List.length_singleton]
      exact congrArg (·, _) (congrArg Prod.fst ih)

/-- Any number of insertions, while the counters are low. -/
theorem insertCalls_weighs (len : Nat) (calls : List Call) (short : calls.length < 2 ^ 32)
    (low : ∀ before, before <+: calls → (insertCalls E len before).Low) :
    ∃ lists, Weighs E calls (insertCalls E len calls) lists := by
  induction calls using List.reverseRecOn with
  | nil => exact ⟨_, weighs_cleared len⟩
  | append_singleton calls x ih =>
      rw [List.length_append, List.length_singleton] at short
      obtain ⟨lists, weighs⟩ := ih (by omega) fun before part => low before (part.trans (List.prefix_append ..))
      rw [insertCalls_snoc]
      obtain ⟨lists', next, -⟩ := weighs.step (low calls (List.prefix_append ..)) x short
      exact ⟨lists', next⟩

/-- The counters are low as long as there are few calls. -/
theorem insertCalls_low (len : Nat) (calls : List Call) (few : calls.length < 50000000) :
    ∀ before, before <+: calls → (insertCalls E len before).Low := by
  induction calls using List.reverseRecOn with
  | nil =>
      intro before part
      rw [List.prefix_nil.mp part]
      exact low_cleared len
  | append_singleton calls x ih =>
      rw [List.length_append, List.length_singleton] at few
      have earlier := ih (by omega)
      intro before part
      rcases List.prefix_concat_iff.mp part with rfl | part
      · obtain ⟨lists, weighs⟩ := insertCalls_weighs (E := E) len calls (by omega) earlier
        obtain ⟨lists', next, -⟩ := weighs.step (earlier calls List.prefix_rfl) x (by omega)
        rw [← insertCalls_snoc] at next
        apply next.sound.consistent.low
        rw [size_insertCalls, List.length_append, List.length_singleton]
        exact few
      · exact earlier before part

/-- The constructor, and then insertions. -/
def builtCalls (E : Env) (len : Nat) (calls : List Call) : Option (Chandelier UInt32) :=
  (new len).map fun c => calls.foldl (fun c x => c.insertWeight E x.1 x.2.1 x.2.2) c

theorem builtCalls_inside (E : Env) {len : Nat} (inside : len ≤ maxTcm) (calls : List Call) :
    builtCalls E len calls = some (insertCalls E len calls) := by
  rw [builtCalls, new_inside inside, Option.map_some, insertCalls]

/-- Every pair inserted has the number of its insertions for its weight, and one
    node, in one of its cells. All lists are consistent. -/
theorem insertCalls_exact (E : Env) {len : Nat} (size : 0 < len ∧ len ≤ maxTcm) (calls : List Call)
    (short : calls.length < 2 ^ 32) (low : ∀ before, before <+: calls → (insertCalls E len before).Low) :
    ∃ c, builtCalls E len calls = some c ∧ (∀ e, ∃ w, c.queryWeight E e = some w ∧ w.toNat = times calls e) ∧
      c.fault = false ∧ ∃ lists, c.Consistent lists ∧
        (∀ e, 0 < times calls e → ∃! x : Place × Addr, c.Found lists e x.1 x.2) ∧
        ∀ e p a, c.Found lists e p a → p ∈ cells E len e ∧ p.1 < maxTcm ∧ p.2 < maxTcm := by
  obtain ⟨lists, weighs⟩ := insertCalls_weighs len calls short low
  have sound := weighs.sound
  refine ⟨_, builtCalls_inside E size.2 calls, fun e => weighs.query (low calls List.prefix_rfl) e, sound.fault, lists,
    sound.consistent, fun e positive => ?_, fun e p a here => ?_⟩
  · obtain ⟨a, w, ⟨p, ha⟩, has⟩ := weighs.held e positive
    refine ⟨(p, a), ⟨ha, w, has⟩, fun y here => ?_⟩
    obtain ⟨q, b⟩ := y
    obtain ⟨hb, w', has'⟩ := here
    obtain rfl := sound.filed.once b a e w' w ⟨q, hb⟩ ⟨p, ha⟩ has' has
    rw [sound.consistent.apart q p b hb ha]
  · obtain ⟨ha, w, has⟩ := here
    have placed := sound.filed.placed p a e w ha has
    rw [show (insertCalls E len calls).len = len from congrArg Prod.fst (size_insertCalls ..)] at placed
    exact ⟨placed, cells_inside E size placed⟩

/-- Three insertions of two edges which collide. -/
theorem insertCalls_exact_three : ∃ c, builtCalls colliding 1 [(⟨1, 2⟩, none, none), (⟨3, 4⟩, none, none),
    (⟨1, 2⟩, none, none)] = some c ∧ c.queryWeight colliding ⟨1, 2⟩ = some 2 := by
  obtain ⟨c, done, weights, -⟩ := insertCalls_exact colliding (by decide)
    [(⟨1, 2⟩, none, none), (⟨3, 4⟩, none, none), (⟨1, 2⟩, none, none)] (by decide) (insertCalls_low 1 _ (by decide))
  obtain ⟨w, found, weight⟩ := weights ⟨1, 2⟩
  obtain rfl : w = 2 := UInt32.toNat_inj.mp weight
  exact ⟨c, done, found⟩

/-- A matrix of length 7001 does not get as far as the first insertion. -/
theorem insertCalls_outside : ¬ ∃ c, builtCalls colliding 7001 [(⟨1, 2⟩, none, none)] = some c ∧
    c.queryWeight colliding ⟨1, 2⟩ = some 1 := by
  rintro ⟨c, done, -⟩
  rw [builtCalls, new_outside (by decide)] at done
  cases done

end Chandelier

end WindBell

end CuckooGraph
