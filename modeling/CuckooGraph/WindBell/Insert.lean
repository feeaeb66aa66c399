import CuckooGraph.WindBell.Search

/-! # Inserting a node

A node goes to the front of one of its cells. If another of the cells is much
fuller, the last node of that cell is taken out and put in again in the same
way, up to three times. No node is lost meanwhile, and none changes but for its
pointers.
-/

namespace CuckooGraph

open TwoLayer Linked

namespace WindBell

namespace Chandelier

variable {ω : Type} {E : Env} {c c' : Chandelier ω} {lists lists' : Place → List Addr} {a : Addr}
  {n : Chain ω}

/-- An edge, and what its fresh node has in its pointers. -/
abbrev Call := Edge × Option Addr × Option Addr

/-- All lists of a matrix, and where the edges are in them. -/
structure Sound (E : Env) (c : Chandelier ω) (lists : Place → List Addr) : Prop where
  consistent : c.Consistent lists
  filed : c.Filed E lists
  fault : c.fault = false

theorem sound_cleared (len : Nat) : (cleared len : Chandelier ω).Sound E fun _ => [] where
  consistent := consistent_cleared len
  filed := ⟨by simp, fun a b e w w' ha => by simp [Held] at ha⟩
  fault := rfl

/-- Fewer nodes, of the edges they had. -/
theorem Filed.sublists (filed : c.Filed E lists)
    (edges : ∀ b e w, Held lists' b → item c'.heap b = some (e, w) → ∃ w, item c.heap b = some (e, w))
    (len : c'.len = c.len) (fewer : ∀ p, lists' p ⊆ lists p) : c'.Filed E lists' := by
  have held : ∀ b, Held lists' b → Held lists b := fun b ⟨p, hb⟩ => ⟨p, fewer p hb⟩
  refine ⟨fun p b e w hb has => ?_, fun b d e w w' hb hd first second => ?_⟩
  · obtain ⟨w, has⟩ := edges b e w ⟨p, hb⟩ has
    rw [len]
    exact filed.placed p b e w (fewer p hb) has
  · obtain ⟨w, first⟩ := edges b e w hb first
    obtain ⟨w', second⟩ := edges d e w' hd second
    exact filed.once b d e w w' (held b hb) (held d hd) first second

theorem held_push {p : Place} (b : Addr) :
    Held (Function.update lists p (a :: lists p)) b ↔ b = a ∨ Held lists b := by
  constructor
  · rintro ⟨q, hb⟩
    by_cases same : q = p
    · subst same
      rw [Function.update_self] at hb
      exact (List.mem_cons.mp hb).imp_right fun hb => ⟨q, hb⟩
    · rw [Function.update_of_ne same] at hb
      exact .inr ⟨q, hb⟩
  · rintro (rfl | ⟨q, hb⟩)
    · exact ⟨p, by rw [Function.update_self]; exact List.mem_cons_self⟩
    · refine ⟨q, ?_⟩
      by_cases same : q = p
      · subst same
        rw [Function.update_self]
        exact List.mem_cons_of_mem a hb
      · rwa [Function.update_of_ne same]

/-- A node which is in no list, and whose edge is in none. -/
structure Fresh (c : Chandelier ω) (lists : Place → List Addr) (a : Addr) (n : Chain ω) : Prop where
  free : ¬ Held lists a
  live : c.heap.get a = some n
  new : ∀ b w, Held lists b → item c.heap b ≠ some (n.edge, w)

theorem Fresh.item (fresh : c.Fresh lists a n) : WindBell.item c.heap a = some (n.edge, n.weight) := by
  simp only [WindBell.item, fresh.live, Option.map_some]

/-- A node is put in front of one of its cells. -/
theorem Sound.linkFront (s : c.Sound E lists) (fresh : c.Fresh lists a n) {p : Place}
    (hp : p ∈ cells E c.len n.edge) :
    (c.linkFront p a n).Sound E (Function.update lists p (a :: lists p)) ∧
      WindBell.item (c.linkFront p a n).heap = WindBell.item c.heap ∧ (c.linkFront p a n).len = c.len := by
  obtain ⟨consistent, items, len, fault⟩ := s.consistent.linkFront (p := p) fresh.free fresh.live
  refine ⟨⟨consistent, ⟨fun q b e w hb has => ?_, fun b d e w w' hb hd first second => ?_⟩,
    fault.trans s.fault⟩, items, len⟩
  · rw [items] at has
    rw [len]
    by_cases mine : b = a
    · subst mine
      obtain ⟨rfl, -⟩ := Prod.mk.inj (Option.some.inj (fresh.item.symm.trans has))
      by_cases same : q = p
      · exact same ▸ hp
      · rw [Function.update_of_ne same] at hb
        exact absurd ⟨q, hb⟩ fresh.free
    · by_cases same : q = p
      · subst same
        rw [Function.update_self] at hb
        exact s.filed.placed q b e w ((List.mem_cons.mp hb).resolve_left mine) has
      · rw [Function.update_of_ne same] at hb
        exact s.filed.placed q b e w hb has
  · rw [items] at first second
    rw [held_push] at hb hd
    have edge : ∀ {v}, WindBell.item c.heap a = some (e, v) → n.edge = e := fun has =>
      (Prod.mk.inj (Option.some.inj (fresh.item.symm.trans has))).1
    rcases hb with rfl | hb <;> rcases hd with rfl | hd
    · rfl
    · exact absurd second (edge first ▸ fresh.new d w' hd)
    · exact absurd first (edge second ▸ fresh.new b w hb)
    · exact s.filed.once b d e w w' hb hd first second

/-- What putting a node in comes to. -/
structure Inserted (E : Env) (c : Chandelier ω) (lists : Place → List Addr) (a : Addr) (c' : Chandelier ω)
    (lists' : Place → List Addr) : Prop where
  sound : c'.Sound E lists'
  held : ∀ b, Held lists' b ↔ b = a ∨ Held lists b
  items : item c'.heap = item c.heap
  len : c'.len = c.len

theorem cnt_getD {e : Edge} {i : Nat} (inside : i < (c.cnt E e).length) :
    (cells E c.len e).getD i (0, 0) ∈ cells E c.len e ∧
      (c.cnt E e).getD i 0 = c.counter ((cells E c.len e).getD i (0, 0)) := by
  have inside' : i < (cells E c.len e).length := by simpa [cnt] using inside
  simp only [List.getD, List.getElem?_eq_getElem inside, List.getElem?_eq_getElem inside', Option.getD_some]
  exact ⟨List.getElem_mem inside', by simp [cnt]⟩

theorem last_two {as : List Addr} (long : 2 ≤ as.length) : ∃ init q t, as = init ++ [q, t] := by
  rcases List.eq_nil_or_concat as with rfl | ⟨as, t, rfl⟩
  · simp at long
  · rcases List.eq_nil_or_concat as with rfl | ⟨as, q, rfl⟩
    · simp at long
    · exact ⟨as, q, t, by simp⟩

/-- The last node of a full cell is in no list any more, and can be put in again. -/
theorem Sound.evict (s : c.Sound E lists) {p : Place} (full : 2 ≤ (lists p).length) :
    ∃ c' t n lists', c.evict p = (c', some (t, n)) ∧ c'.Sound E lists' ∧ c'.Fresh lists' t n ∧
      (∀ b, Held lists b ↔ b = t ∨ Held lists' b) ∧ WindBell.item c'.heap = WindBell.item c.heap ∧
      c'.len = c.len ∧ ∀ q, c'.counter q ≤ c.counter q := by
  obtain ⟨init, q, t, long⟩ := last_two full
  obtain ⟨n, live, c', taken, live', consistent, items, len, fault⟩ := s.consistent.evict long
  have member : t ∈ lists p := by simp [long]
  have nodup := s.consistent.nodup p
  rw [long] at nodup
  have out : t ∉ init ++ [q] := by
    rw [List.append_cons, List.nodup_append] at nodup
    exact fun here => nodup.2.2 t here t (List.mem_singleton_self t) rfl
  have fewer : ∀ r, Function.update lists p (init ++ [q]) r ⊆ lists r := by
    intro r b hb
    by_cases same : r = p
    · subst same
      rw [Function.update_self] at hb
      rw [long, List.append_cons]
      exact List.mem_append_left _ hb
    · rwa [Function.update_of_ne same] at hb
  have free : ¬ Held (Function.update lists p (init ++ [q])) t := by
    rintro ⟨r, here⟩
    obtain rfl := s.consistent.apart r p t (fewer r here) member
    exact out (by rwa [Function.update_self] at here)
  have held : ∀ b, Held lists b ↔ b = t ∨ Held (Function.update lists p (init ++ [q])) b := by
    intro b
    refine ⟨fun ⟨r, hb⟩ => ?_, fun here => here.elim (fun same => ⟨p, same ▸ member⟩) fun ⟨r, hb⟩ =>
      ⟨r, fewer r hb⟩⟩
    by_cases last : b = t
    · exact .inl last
    · refine .inr ⟨r, ?_⟩
      by_cases same : r = p
      · subst same
        rw [long, List.append_cons] at hb
        rw [Function.update_self]
        exact (List.mem_append.mp hb).resolve_right fun here => last (List.mem_singleton.mp here)
      · rwa [Function.update_of_ne same]
  refine ⟨c', t, n, _, taken, ⟨consistent, s.filed.sublists (fun b e w _ has => ⟨w, items ▸ has⟩) len fewer,
    fault.trans s.fault⟩,
    ⟨free, live', fun b w hb has => free ?_⟩, held, items, len, fun r => ?_⟩
  · rw [items] at has
    have mine : WindBell.item c.heap t = some (n.edge, n.weight) := by
      simp only [WindBell.item, live, Option.map_some]
    rwa [← s.filed.once b t n.edge w n.weight ((held b).mpr (.inr hb)) ⟨p, member⟩ has mine]
  · rw [consistent.count, s.consistent.count]
    have shorter : (Function.update lists p (init ++ [q]) r).length ≤ (lists r).length := by
      by_cases same : r = p
      · subst same
        simp [long]
      · rw [Function.update_of_ne same]
    exact_mod_cast shorter

/-- The heap changes, but not the pointers of the lists. -/
theorem Sound.heap (s : c.Sound E lists) {h : Heap (Chain ω)}
    (pointers : ∀ b, Held lists b → Agrees Chain.pointerChand c.heap h b ∧ Agrees Chain.pointerChandRe c.heap h b)
    (edges : ∀ b e w, Held lists b → WindBell.item h b = some (e, w) → ∃ w, WindBell.item c.heap b = some (e, w)) :
    ({ c with heap := h } : Chandelier ω).Sound E lists where
  consistent := ⟨fun p => (s.consistent.listed p).frame (fun b hb => (pointers b ⟨p, hb⟩).1)
    fun b hb => (pointers b ⟨p, List.mem_of_mem_tail hb⟩).2, s.consistent.count, s.consistent.apart⟩
  filed := s.filed.sublists edges rfl fun _ => List.Subset.refl _
  fault := s.fault

/-- The caller makes a node. -/
theorem Sound.alloc (s : c.Sound E lists) (n : Chain ω) :
    ({ c with heap := (c.heap.alloc n).1 } : Chandelier ω).Sound E lists ∧ ¬ Held lists (c.heap.alloc n).2 ∧
      ∀ b, Held lists b → WindBell.item (c.heap.alloc n).1 b = WindBell.item c.heap b := by
  have live : ∀ b, Held lists b → ∃ m, c.heap.get b = some m := fun b ⟨p, hb⟩ => s.consistent.live hb
  have kept : ∀ b, Held lists b → (c.heap.alloc n).1.get b = c.heap.get b := by
    intro b hb
    obtain ⟨m, here⟩ := live b hb
    rw [here, Heap.get_alloc here]
  refine ⟨s.heap (fun b hb => ⟨.of_get (kept b hb), .of_get (kept b hb)⟩) fun b e w hb has => ⟨w, ?_⟩,
    fun hb => ?_, fun b hb => by simp only [WindBell.item, kept b hb]⟩
  · simpa only [WindBell.item, kept b hb] using has
  · obtain ⟨m, here⟩ := live _ hb
    rw [Heap.get_fresh] at here
    cases here

/-- A node that is put in and not followed by an eviction. -/
theorem Sound.inserted (s : c.Sound E lists) (fresh : c.Fresh lists a n) {p : Place}
    (hp : p ∈ cells E c.len n.edge) :
    Inserted E c lists a (c.linkFront p a n) (Function.update lists p (a :: lists p)) := by
  obtain ⟨sound, items, len⟩ := s.linkFront fresh hp
  exact ⟨sound, held_push, items, len⟩

/-- The cells which `min` and `max` choose. -/
theorem Sound.choose (s : c.Sound E lists) (low : c.Low) (e : Edge) :
    ∃ minn maxx, minIndex (c.cnt E e) = some minn ∧ maxIndex (c.cnt E e) = some maxx ∧
      (cells E c.len e).getD minn (0, 0) ∈ cells E c.len e ∧
      (c.cnt E e).getD minn 0 = c.counter ((cells E c.len e).getD minn (0, 0)) ∧
      (c.cnt E e).getD maxx 0 = c.counter ((cells E c.len e).getD maxx (0, 0)) := by
  have member : c.counter ((cells E c.len e).head (by simp [cells])) ∈ c.cnt E e :=
    List.mem_map_of_mem (List.head_mem _)
  have high : -1 < c.counter ((cells E c.len e).head (by simp [cells])) := by
    rw [s.consistent.count]
    omega
  obtain ⟨minn, least, insideMin⟩ := minIndex_some member (low _)
  obtain ⟨maxx, greatest, insideMax⟩ := maxIndex_some member high
  obtain ⟨cellMin, cntMin⟩ := cnt_getD insideMin
  exact ⟨minn, maxx, least, greatest, cellMin, cntMin, (cnt_getD insideMax).2⟩

/-- Where a node has been put in, the counter is not the largest if another cell
    is to lose a node. -/
theorem Sound.low_push (s : c.Sound E lists) (low : c.Low) (fresh : c.Fresh lists a n) {p q : Place}
    (hp : p ∈ cells E c.len n.edge) (full : c.counter q > 10) (uneven : c.counter p * 2 < c.counter q) :
    (c.linkFront p a n).Low ∧ 2 ≤ (Function.update lists p (a :: lists p) q).length := by
  have linked := (s.inserted fresh hp).sound.consistent
  have ne : q ≠ p := by
    rintro rfl
    omega
  refine ⟨fun r => ?_, ?_⟩
  · rw [linked.count]
    by_cases same : r = p
    · subst same
      have bound := low q
      have count := s.consistent.count r
      rw [Function.update_self, List.length_cons]
      push_cast
      omega
    · rw [Function.update_of_ne same, ← s.consistent.count]
      exact low r
  · rw [Function.update_of_ne ne]
    have count := s.consistent.count q
    omega

/-- `insert_new` loses no node, however many evictions it may make. -/
theorem insertNew_inserted (left : Nat) (s : c.Sound E lists) (low : c.Low) (fresh : c.Fresh lists a n) :
    ∃ lists', Inserted E c lists a (insertNew E left c a n) lists' := by
  induction left generalizing c lists a n with
  | zero =>
      obtain ⟨minn, maxx, least, greatest, hp, -, -⟩ := s.choose low n.edge
      rw [insertNew]
      simp only [least, greatest]
      exact ⟨_, s.inserted fresh hp⟩
  | succ left ih =>
      obtain ⟨minn, maxx, least, greatest, hp, cntMin, cntMax⟩ := s.choose low n.edge
      rw [insertNew]
      simp only [least, greatest, cntMin, cntMax]
      generalize (cells E c.len n.edge).getD minn (0, 0) = p at *
      generalize (cells E c.len n.edge).getD maxx (0, 0) = q at *
      have linked := s.inserted fresh hp
      split
      · rename_i uneven
        obtain ⟨low', long⟩ := s.low_push low fresh hp uneven.1 uneven.2
        obtain ⟨c', t, m, rest, taken, sound, again, held, items, len, less⟩ := linked.sound.evict long
        obtain ⟨lists', inserted⟩ := ih sound (fun r => (less r).trans_lt (low' r)) again
        simp only [taken]
        refine ⟨lists', inserted.sound, fun b => ?_, inserted.items.trans (items.trans linked.items),
          inserted.len.trans (len.trans linked.len)⟩
        rw [inserted.held, ← held, linked.held]
      · exact ⟨_, linked⟩

/-- A new node for an edge which has none. -/
structure Added (E : Env) (c : Chandelier ω) (lists : Place → List Addr) (n : Chain ω) (c' : Chandelier ω)
    (lists' : Place → List Addr) : Prop where
  sound : c'.Sound E lists'
  len : c'.len = c.len
  held : ∀ b, Held lists' b ↔ b = (c.heap.alloc n).2 ∨ Held lists b
  here : item c'.heap (c.heap.alloc n).2 = some (n.edge, n.weight)
  items : ∀ b, Held lists b → item c'.heap b = item c.heap b

theorem Sound.add (s : c.Sound E lists) (low : c.Low) (n : Chain ω)
    (new : ∀ b w, Held lists b → WindBell.item c.heap b ≠ some (n.edge, w)) :
    ∃ lists', Added E c lists n
      (insertNew E 3 { c with heap := (c.heap.alloc n).1 } (c.heap.alloc n).2 n) lists' := by
  obtain ⟨sound, free, items⟩ := s.alloc n
  have fresh : ({ c with heap := (c.heap.alloc n).1 } : Chandelier ω).Fresh lists (c.heap.alloc n).2 n :=
    ⟨free, Heap.get_alloc_self, fun b w hb => by
      rw [items b hb]
      exact new b w hb⟩
  obtain ⟨lists', inserted⟩ := insertNew_inserted 3 sound low fresh
  refine ⟨lists', inserted.sound, inserted.len, inserted.held, ?_, fun b hb => ?_⟩
  · rw [inserted.items]
    exact fresh.item
  · rw [inserted.items, items b hb]

section Size

/-- The number of rows and columns, and the number of nodes made. -/
def size (c : Chandelier ω) : Nat × Nat := (c.len, c.heap.objects.length)

theorem size_linkFront (c : Chandelier ω) (p : Place) (a : Addr) (n : Chain ω) :
    (c.linkFront p a n).size = c.size := by
  simp only [linkFront]
  split
  · split <;> simp [size, Heap.set, crash]
  · simp [size, Heap.set]

theorem size_evict (c : Chandelier ω) (p : Place) : (c.evict p).1.size = c.size := by
  simp only [evict]
  split
  · rfl
  · split
    · rfl
    · dsimp only
      split
      · rfl
      · split <;> simp [size, Heap.set, crash]

theorem size_insertNew (E : Env) (left : Nat) (c : Chandelier ω) (a : Addr) (n : Chain ω) :
    (insertNew E left c a n).size = c.size := by
  induction left generalizing c a n with
  | zero =>
      rw [insertNew]
      cases minIndex (c.cnt E n.edge) with
      | none => rfl
      | some minn =>
          cases maxIndex (c.cnt E n.edge) with
          | none => exact size_linkFront ..
          | some maxx => exact size_linkFront ..
  | succ left ih =>
      rw [insertNew]
      cases minIndex (c.cnt E n.edge) with
      | none => rfl
      | some minn =>
          cases maxIndex (c.cnt E n.edge) with
          | none => exact size_linkFront ..
          | some maxx =>
              dsimp only
              split
              · split
                · rename_i c' t n' taken
                  have size := congrArg (fun r => r.1.size) taken
                  rw [ih, ← size]
                  exact (size_evict ..).trans (size_linkFront ..)
                · rename_i c' taken
                  have size := congrArg (fun r => r.1.size) taken
                  exact size.symm.trans ((size_evict ..).trans (size_linkFront ..))
              · exact size_linkFront ..

/-- No counter exceeds the number of nodes made. -/
theorem Consistent.counter_le {c : Chandelier ω} {lists : Place → List Addr} (k : c.Consistent lists) (p : Place) :
    c.counter p ≤ c.size.2 := by
  rw [k.count p]
  exact_mod_cast (k.listed p).path.length_le

end Size

/-- The counters are low as long as there are few nodes. -/
theorem Consistent.low {c : Chandelier ω} {lists : Place → List Addr} (k : c.Consistent lists)
    (few : c.size.2 < 50000000) : c.Low := by
  intro p
  have bound := k.counter_le p
  unfold maxNum
  omega

theorem low_cleared (len : Nat) : (cleared len : Chandelier ω).Low := fun p => show (0 : Int) < maxNum by decide

end Chandelier

end WindBell

end CuckooGraph
