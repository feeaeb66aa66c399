import CuckooGraph.WindBell.Edges

/-! # Deleting an edge

A node that is the first or the last of its list is taken out properly. The node
behind any other one has itself for its backward pointer afterwards, since
`temp->pointer_chand->pointer_chand_re` is set to `temp->pointer_chand`.
-/

namespace CuckooGraph

open TwoLayer Linked

namespace WindBell

namespace Chandelier

variable {E : Env} {c c' : Chandelier Unit} {lists : Place → List Addr} {p : Place} {a q : Addr}
  {n m : Chain Unit} {e : Edge}

section Equations

/-- The only node. -/
theorem unlink_only (live : c.heap.get a = some n) (head : c.pointerHead p = some a)
    (next : n.pointerChand = none) : c.unlink p a =
    { c with pointerHead := Function.update c.pointerHead p none,
             pointerTail := Function.update c.pointerTail p n.pointerChandRe,
             counter := Function.update c.counter p (c.counter p - 1),
             heap := c.heap.free a } := by
  simp only [unlink, live, head, next, if_true]

/-- The first node. -/
theorem unlink_first {b : Addr} (live : c.heap.get a = some n) (head : c.pointerHead p = some a)
    (next : n.pointerChand = some b) (behind : c.heap.get b = some m) : c.unlink p a =
    { c with pointerHead := Function.update c.pointerHead p (some b),
             counter := Function.update c.counter p (c.counter p - 1),
             heap := (c.heap.set b { m with pointerChandRe := some b }).free a } := by
  simp only [unlink, live, head, next, behind, if_true]

/-- The last node. -/
theorem unlink_last (live : c.heap.get a = some n) (head : c.pointerHead p ≠ some a)
    (back : n.pointerChandRe = some q) (before : c.heap.get q = some m) (next : n.pointerChand = none) :
    c.unlink p a =
    { c with pointerTail := Function.update c.pointerTail p (some q),
             counter := Function.update c.counter p (c.counter p - 1),
             heap := (c.heap.set q { m with pointerChand := none }).free a } := by
  simp only [unlink, live, head, back, before, next, if_false]

/-- A node between two others. -/
theorem unlink_middle {b : Addr} {m' : Chain Unit} (live : c.heap.get a = some n)
    (head : c.pointerHead p ≠ some a) (back : n.pointerChandRe = some q) (before : c.heap.get q = some m)
    (next : n.pointerChand = some b)
    (behind : (c.heap.set q { m with pointerChand := some b }).get b = some m') : c.unlink p a =
    { c with counter := Function.update c.counter p (c.counter p - 1),
             heap := ((c.heap.set q { m with pointerChand := some b }).set b
                       { m' with pointerChandRe := some b }).free a } := by
  simp only [unlink, live, head, back, before, next, behind, if_false]

end Equations

/-- What taking a node out comes to. -/
structure Removed (c : Chandelier Unit) (lists : Place → List Addr) (p : Place) (a : Addr)
    (c' : Chandelier Unit) : Prop where
  consistent : c'.Consistent (Function.update lists p ((lists p).erase a))
  items : ∀ b, b ≠ a → item c'.heap b = item c.heap b
  len : c'.len = c.len
  fault : c'.fault = c.fault

theorem item_free {h h' : Heap (Chain Unit)} (kept : item h' = item h) (b : Addr) (other : b ≠ a) :
    item (h'.free a) b = item h b := by
  rw [← kept, item, Heap.get_free_ne other, item]

namespace Consistent

variable (k : c.Consistent lists)

include k

theorem count_erase (ha : a ∈ lists p) : c.counter p - 1 = ((lists p).erase a).length := by
  have positive := List.length_pos_of_mem ha
  rw [k.count p, List.length_erase_of_mem ha]
  omega

theorem unlink_head {as : List Addr} (list : lists p = a :: as) : Removed c lists p a (c.unlink p a) := by
  have dlist := k.listed p
  have ha : a ∈ lists p := list ▸ List.mem_cons_self
  have count := k.count_erase ha
  have nodup := k.nodup p
  obtain ⟨n, live⟩ := k.live ha
  have head : c.pointerHead p = some a := by
    have path := dlist.path
    rw [list] at path
    exact path.1
  have rest : (lists p).erase a = as := by rw [list, List.erase_cons_head]
  have ne : ∀ b ∈ as, b ≠ a := fun b hb same => by
    rw [list] at nodup
    exact (List.nodup_cons.mp nodup).1 (same ▸ hb)
  have away : ∀ {r b}, r ≠ p → b ∈ lists r → b ≠ a := fun other hb same =>
    other (k.apart _ p a (same ▸ hb) ha)
  have kept : ∀ b ∈ (lists p).erase a, b ∈ lists p ∨ ¬ Held lists b := fun b hb =>
    .inl (List.mem_of_mem_erase hb)
  rw [list] at dlist
  cases next : n.pointerChand with
  | none =>
      rw [unlink_only live head next]
      refine ⟨k.exchange ?_ (by simpa using count) (fun r other => by simp [other]) (fun r other b hb =>
        ⟨.free (away other hb) (.of_get rfl), .free (away other hb) (.of_get rfl)⟩) kept,
        item_free rfl, rfl, rfl⟩
      have left := dlist.behead n.pointerChandRe live (fun some => absurd next some)
        (fun b hb => .free (ne b hb) (.of_get rfl))
        fun b hb => .free (ne b (List.mem_of_mem_tail hb)) (.of_get rfl)
      simpa only [Listed, Function.update_self, rest, next] using left
  | some b =>
      obtain ⟨-, n', live', path⟩ := dlist.path
      obtain rfl := Option.some.inj (live.symm.trans live')
      rw [next] at path
      obtain ⟨bs, rfl⟩ : ∃ bs, as = b :: bs := by
        cases as with
        | nil => cases path
        | cons d bs => exact ⟨bs, by rw [Option.some.inj path.1]⟩
      obtain ⟨m, behind⟩ := path.live b List.mem_cons_self
      rw [unlink_first live head next behind]
      have hb : b ∈ lists p := list ▸ List.mem_cons_of_mem a List.mem_cons_self
      have tails : ∀ d ∈ bs, d ≠ b := fun d hd same => by
        rw [list] at nodup
        exact (List.nodup_cons.mp (List.nodup_cons.mp nodup).2).1 (same ▸ hd)
      have forward : ∀ d, Agrees Chain.pointerChand c.heap (c.heap.set b { m with pointerChandRe := some b }) d :=
        fun d => .set behind rfl
      refine ⟨k.exchange ?_ (by simpa using count) (fun r other => by simp [other]) (fun r other d hd =>
        ⟨.free (away other hd) (forward d), .free (away other hd)
          (.set_ne fun same => other (k.apart r p b (same ▸ hd) hb))⟩) kept,
        item_free (item_set behind rfl rfl), rfl, rfl⟩
      have left := dlist.behead (c.pointerTail p) live (fun _ => rfl)
        (fun d hd => .free (ne d hd) (forward d))
        fun d hd => .free (ne d (List.mem_of_mem_tail hd)) (.set_ne (tails d hd))
      simpa only [Listed, Function.update_self, rest, next] using left

theorem unlink_tail {init : List Addr} (list : lists p = init ++ [q, a]) :
    Removed c lists p a (c.unlink p a) := by
  have dlist := k.listed p
  have ha : a ∈ lists p := by simp [list]
  have hq : q ∈ lists p := by simp [list]
  have count := k.count_erase ha
  have nodup := k.nodup p
  rw [list] at dlist nodup
  obtain ⟨n, live, back⟩ := dlist.backed.pair
  obtain ⟨m, before, -, -⟩ := dlist.path.split_at
  obtain ⟨n', live', -, next⟩ := (show Path Chain.pointerChand c.heap (c.pointerHead p) ((init ++ [q]) ++ [a]) by
    simpa using dlist.path).split_at
  obtain rfl := Option.some.inj (live.symm.trans live')
  have next : n.pointerChand = none := next
  have out : a ∉ init ++ [q] := by
    rw [List.append_cons, List.nodup_append] at nodup
    exact fun here => nodup.2.2 a here a (List.mem_singleton_self a) rfl
  have ne : ∀ b ∈ init ++ [q], b ≠ a := fun b hb same => out (same ▸ hb)
  have init_ne : ∀ b ∈ init, b ≠ q := by
    rw [List.nodup_append] at nodup
    exact fun b hb same => nodup.2.2 b hb q List.mem_cons_self same
  have head : c.pointerHead p ≠ some a := by
    intro first
    have path := dlist.path
    cases init with
    | nil => exact ne q (by simp) (Option.some.inj (path.1.symm.trans first))
    | cons b init => exact ne b (by simp) (Option.some.inj (path.1.symm.trans first))
  have rest : (lists p).erase a = init ++ [q] := by
    rw [list, List.append_cons, List.erase_append_right _ out, List.erase_cons_head, List.append_nil]
  have away : ∀ {r b}, r ≠ p → b ∈ lists r → b ≠ a := fun other hb same =>
    other (k.apart _ p a (same ▸ hb) ha)
  rw [unlink_last live head back before next]
  refine ⟨k.exchange ?_ (by simpa using count) (fun r other => by simp [other]) (fun r other b hb =>
    ⟨.free (away other hb) (.set_ne fun same => other (k.apart r p q (same ▸ hb) hq)),
      .free (away other hb) (.set before rfl)⟩) (fun b hb => .inl (List.mem_of_mem_erase hb)),
    item_free (item_set before rfl rfl), rfl, rfl⟩
  have still : ((c.heap.set q { m with pointerChand := none }).free a).get q =
      some { m with pointerChand := none } :=
    (Heap.get_free_ne (ne q (by simp))).trans (Heap.get_set_self before)
  have popped := dlist.pop still rfl
    (fun b hb => .free (ne b (List.mem_append_left _ hb)) (.set_ne (init_ne b hb)))
    fun b hb => .free (ne b (List.mem_of_mem_tail hb)) (.set before rfl)
  simpa only [Listed, Function.update_self, rest] using popped

end Consistent

/-- The node of a list is its first or last one, or is between two others. -/
theorem Consistent.position (k : c.Consistent lists) (ha : a ∈ lists p) (live : c.heap.get a = some n) :
    (∃ as, lists p = a :: as ∧ c.pointerHead p = some a) ∨
      ∃ init q as, lists p = init ++ q :: a :: as ∧ c.pointerHead p ≠ some a ∧
        (n.pointerChand = none ↔ as = []) := by
  have path := (k.listed p).path
  have nodup := k.nodup p
  obtain ⟨init, as, list⟩ := List.append_of_mem ha
  rw [list] at path nodup
  rcases List.eq_nil_or_concat init with rfl | ⟨init, q, rfl⟩
  · exact .inl ⟨as, list, path.1⟩
  · obtain ⟨n', live', -, rest⟩ := path.split_at
    obtain rfl := Option.some.inj (live.symm.trans live')
    rw [List.concat_append] at list path nodup
    refine .inr ⟨init, q, as, list, fun first => ?_, ?_⟩
    · rw [List.nodup_append] at nodup
      cases init with
      | nil =>
          obtain rfl := Option.some.inj (path.1.symm.trans first)
          exact (List.nodup_cons.mp nodup.2.1).1 List.mem_cons_self
      | cons b init =>
          obtain rfl := Option.some.inj (path.1.symm.trans first)
          exact nodup.2.2 b List.mem_cons_self b (by simp) rfl
    · cases as with
      | nil => exact ⟨fun _ => rfl, fun _ => rest⟩
      | cons b as => exact ⟨fun none => absurd (rest.1.symm.trans none) (by simp), fun none => by cases none⟩

theorem Consistent.unlink (k : c.Consistent lists) (ha : a ∈ lists p) (live : c.heap.get a = some n)
    (outer : c.pointerHead p = some a ∨ n.pointerChand = none) : Removed c lists p a (c.unlink p a) := by
  rcases k.position ha live with ⟨as, list, -⟩ | ⟨init, q, as, list, inner, last⟩
  · exact k.unlink_head list
  · obtain rfl := last.mp (outer.resolve_left inner)
    exact k.unlink_tail list

/-- The node behind the one taken out points back to itself. -/
theorem Consistent.unlink_broken (k : c.Consistent lists) (ha : a ∈ lists p) (live : c.heap.get a = some n)
    (inner : c.pointerHead p ≠ some a) (onward : n.pointerChand ≠ none) :
    ¬ ∃ lists', (c.unlink p a).Consistent lists' := by
  rcases k.position ha live with ⟨_, -, first⟩ | ⟨init, q, as, list, -, last⟩
  · exact absurd first inner
  cases as with
  | nil => exact absurd (last.mpr rfl) onward
  | cons b as =>
      have dlist := k.listed p
      have nodup := k.nodup p
      rw [list] at dlist nodup
      obtain ⟨n', live', back⟩ := dlist.backed.pair
      obtain rfl := Option.some.inj (live.symm.trans live')
      obtain ⟨m, before, -, -, n', live', onto, m', behind, -⟩ := dlist.path.split_at
      obtain rfl := Option.some.inj (live.symm.trans live')
      have parts := (List.nodup_append.mp nodup).2.2
      have rest := List.nodup_cons.mp (List.nodup_append.mp nodup).2.1
      have last := List.nodup_cons.mp rest.2
      have ne : b ≠ q := fun same => rest.1 (same ▸ List.mem_cons_of_mem a List.mem_cons_self)
      have front : q ≠ a := fun same => rest.1 (same ▸ List.mem_cons_self)
      have behind : (c.heap.set q { m with pointerChand := some b }).get b = some m' :=
        (Heap.get_set_ne ne).trans behind
      rintro ⟨lists', k'⟩
      rw [unlink_middle live inner back before onto behind] at k'
      have still : (((c.heap.set q { m with pointerChand := some b }).set b
          { m' with pointerChandRe := some b }).free a).get q = some { m with pointerChand := some b } :=
        (Heap.get_free_ne front).trans ((Heap.get_set_ne ne.symm).trans (Heap.get_set_self before))
      have path := dlist.path.skip live still onto.symm fun d hd => by
        have other : d ≠ q ∧ d ≠ a := by
          rcases List.mem_append.mp hd with hd | hd
          · exact ⟨parts d hd q List.mem_cons_self, parts d hd a (by simp)⟩
          · exact ⟨fun same => rest.1 (List.mem_cons_of_mem a (same ▸ hd)), fun same => last.1 (same ▸ hd)⟩
        exact .free other.2 ((Agrees.set_ne other.1).trans (.set behind rfl))
      have broken := (k'.listed p).backed
      rw [(k'.listed p).path.unique path] at broken
      obtain ⟨n', here, wrong⟩ := broken.pair
      have away : b ≠ a := fun same => last.1 (same ▸ List.mem_cons_self)
      rw [Heap.get_free_ne away, Heap.get_set_self behind] at here
      obtain rfl := Option.some.inj here
      exact ne (Option.some.inj wrong)

theorem held_erase (k : c.Consistent lists) (ha : a ∈ lists p) (b : Addr) :
    Held (Function.update lists p ((lists p).erase a)) b ↔ b ≠ a ∧ Held lists b := by
  constructor
  · rintro ⟨r, hb⟩
    by_cases same : r = p
    · subst same
      rw [Function.update_self, (k.nodup r).mem_erase_iff] at hb
      exact ⟨hb.1, r, hb.2⟩
    · rw [Function.update_of_ne same] at hb
      exact ⟨fun equal => same (k.apart r p a (equal ▸ hb) ha), r, hb⟩
  · rintro ⟨other, r, hb⟩
    refine ⟨r, ?_⟩
    by_cases same : r = p
    · subst same
      rw [Function.update_self, (k.nodup r).mem_erase_iff]
      exact ⟨other, hb⟩
    · rwa [Function.update_of_ne same]

/-- With its node an edge is gone. -/
theorem Sound.remove (s : c.Sound E lists) (low : c.Low) (found : c.Found lists e p a)
    (removed : Removed c lists p a c') :
    ∃ lists', c'.Sound E lists' ∧ c'.Low ∧ ∀ e', c'.Holds lists' e' ↔ e' ≠ e ∧ c.Holds lists e' := by
  obtain ⟨ha, w, has⟩ := found
  have held := held_erase s.consistent ha
  have fewer : ∀ r, Function.update lists p ((lists p).erase a) r ⊆ lists r := by
    intro r
    by_cases same : r = p
    · subst same
      rw [Function.update_self]
      exact List.erase_subset
    · rw [Function.update_of_ne same]
      exact List.Subset.refl _
  refine ⟨_, ⟨removed.consistent, s.filed.sublists (fun b e w hb here => ⟨w, ?_⟩) removed.len fewer,
    removed.fault.trans s.fault⟩, fun r => ?_, fun e' => ?_⟩
  · rwa [removed.items b ((held b).mp hb).1] at here
  · have count := removed.consistent.count r
    have bound := low r
    rw [s.consistent.count] at bound
    have shorter : (Function.update lists p ((lists p).erase a) r).length ≤ (lists r).length := by
      by_cases same : r = p
      · subst same
        rw [Function.update_self]
        exact List.length_erase_le
      · rw [Function.update_of_ne same]
    omega
  · rw [holds_iff, holds_iff]
    constructor
    · rintro ⟨b, hb, here⟩
      obtain ⟨other, hb⟩ := (held b).mp hb
      rw [removed.items b other] at here
      exact ⟨fun same => other (s.filed.once b a e () w hb ⟨p, ha⟩ (same ▸ here) has), b, hb, here⟩
    · rintro ⟨other, b, hb, here⟩
      have away : b ≠ a := by
        rintro rfl
        exact other (Prod.mk.inj (Option.some.inj (here.symm.trans has))).1
      exact ⟨b, (held b).mpr ⟨away, hb⟩, (removed.items b away).trans here⟩

/-- What `delete_edge` is to do. A list with a freed node in it would not be consistent. -/
structure Deletes (E : Env) (c : Chandelier Unit) (e : Edge) : Prop where
  returns : ∃ b, c.queryEdge E e = some b ∧ (c.deleteEdge E e).2 = some b
  gone : (c.deleteEdge E e).1.queryEdge E e = some false
  others : ∀ e', e' ≠ e → (c.deleteEdge E e).1.queryEdge E e' = c.queryEdge E e'
  consistent : ∃ lists, (c.deleteEdge E e).1.Consistent lists
  fault : (c.deleteEdge E e).1.fault = false

/-- The node to be deleted has a node before it and one behind it. -/
def Middle (E : Env) (c : Chandelier Unit) (e : Edge) : Prop :=
  ∃ p a n, c.seek E e = some (some (p, a)) ∧ c.heap.get a = some n ∧ c.pointerHead p ≠ some a ∧
    n.pointerChand ≠ none

/-- One deletion. -/
theorem Sound.delete (s : c.Sound E lists) (low : c.Low) (outer : ¬ Middle E c e) :
    ∃ lists', (c.deleteEdge E e).1.Sound E lists' ∧ (c.deleteEdge E e).1.Low ∧
      ∀ e', (c.deleteEdge E e).1.Holds lists' e' ↔ e' ≠ e ∧ c.Holds lists e' := by
  obtain ⟨r, found, some, nothing⟩ := seek_spec (e := e) s.consistent s.filed low
  rw [deleteEdge, found]
  cases r with
  | none =>
      refine ⟨lists, s, low, fun e' => ⟨fun holds => ⟨?_, holds⟩, And.right⟩⟩
      rintro rfl
      obtain ⟨p, a, here⟩ := holds
      exact nothing rfl p a here
  | some x =>
      obtain ⟨p, a⟩ := x
      have here := some p a rfl
      obtain ⟨n, live⟩ := s.consistent.live here.1
      refine s.remove low here (s.consistent.unlink here.1 live ?_)
      by_contra inner
      rw [not_or] at inner
      exact outer ⟨p, a, n, found, live, inner.1, inner.2⟩

/-- A deletion is right unless it takes a node out from between two others. -/
theorem Sound.deletes_iff (s : c.Sound E lists) (low : c.Low) (e : Edge) : Deletes E c e ↔ ¬ Middle E c e := by
  constructor
  · rintro ⟨-, -, -, consistent, -⟩ ⟨p, a, n, found, live, inner, onward⟩
    obtain ⟨r, found', some, -⟩ := seek_spec (e := e) s.consistent s.filed low
    obtain rfl := Option.some.inj (found.symm.trans found')
    rw [deleteEdge, found] at consistent
    exact s.consistent.unlink_broken (some p a rfl).1 live inner onward consistent
  · intro outer
    obtain ⟨lists', sound, low', holds⟩ := s.delete low outer
    obtain ⟨b, asked, here⟩ := s.query low e
    have returned : (c.deleteEdge E e).2 = some b := by
      rw [queryEdge] at asked
      obtain ⟨r, found, same⟩ := Option.map_eq_some_iff.mp asked
      rw [deleteEdge, found, ← same]
      cases r <;> rfl
    refine ⟨⟨b, asked, returned⟩, ?_, fun e' other => ?_, ⟨lists', sound.consistent⟩, sound.fault⟩
    · obtain ⟨b', asked', here'⟩ := sound.query low' e
      rw [asked', Option.some_inj, ← Bool.not_eq_true, here', holds]
      exact fun gone => gone.1 rfl
    · obtain ⟨b', asked', here'⟩ := sound.query low' e'
      obtain ⟨d, asked, here⟩ := s.query low e'
      rw [asked', asked, Option.some_inj, Bool.eq_iff_iff, here', here, holds]
      exact and_iff_right other

section Runs

inductive Op
  | insert (e : Edge) (next prev : Option Addr)
  | delete (e : Edge)

def perform (E : Env) (c : Chandelier Unit) : Op → Chandelier Unit
  | .insert e next prev => c.insert E e next prev
  | .delete e => (c.deleteEdge E e).1

/-- Insertions and deletions on a cleared matrix. -/
def run (E : Env) (len : Nat) (ops : List Op) : Chandelier Unit := ops.foldl (perform E) (cleared len)

/-- The constructor, and then insertions and deletions. -/
def built (E : Env) (len : Nat) (ops : List Op) : Option (Chandelier Unit) :=
  (new len).map fun c => ops.foldl (perform E) c

theorem built_inside (E : Env) {len : Nat} (inside : len ≤ maxTcm) (ops : List Op) :
    built E len ops = some (run E len ops) := by
  rw [built, new_inside inside, Option.map_some, run]

theorem built_outside (E : Env) {len : Nat} (outside : maxTcm < len) (ops : List Op) : built E len ops = none := by
  rw [built, new_outside outside, Option.map_none]

theorem run_snoc (len : Nat) (ops : List Op) (op : Op) :
    run E len (ops ++ [op]) = perform E (run E len ops) op := by
  simp only [run, List.foldl_append, List.foldl_cons, List.foldl_nil]

/-- No step deletes a node between two others. -/
def Outer (E : Env) (len : Nat) (ops : List Op) : Prop :=
  ∀ before e, before ++ [.delete e] <+: ops → ¬ Middle E (run E len before) e

/-- The edges inserted and not deleted since. -/
def remaining (ops : List Op) : List Edge :=
  ops.foldl (fun es op =>
    match op with
    | .insert e _ _ => e :: es
    | .delete e => es.filter (· ≠ e)) []

/-- A matrix holds the edges that remain. -/
theorem run_sound (len : Nat) (ops : List Op) (low : ∀ before, before <+: ops → (run E len before).Low)
    (outer : Outer E len ops) :
    ∃ lists, (run E len ops).Sound E lists ∧ ∀ e, (run E len ops).Holds lists e ↔ e ∈ remaining ops := by
  induction ops using List.reverseRecOn with
  | nil => exact ⟨_, sound_cleared len, fun e => by simp [Holds, Found, remaining]⟩
  | append_singleton ops op ih =>
      have part : ops <+: ops ++ [op] := List.prefix_append ..
      obtain ⟨lists, sound, holds⟩ := ih (fun before h => low before (h.trans part)) fun before e h =>
        outer before e (h.trans part)
      have earlier := low ops part
      rw [run_snoc]
      cases op with
      | insert e next prev =>
          obtain ⟨lists', sound', holds'⟩ := sound.insert earlier e next prev
          refine ⟨lists', sound', fun e' => (holds' e').trans ?_⟩
          simp [remaining, holds]
      | delete e =>
          obtain ⟨lists', sound', -, holds'⟩ := sound.delete earlier (outer ops e List.prefix_rfl)
          refine ⟨lists', sound', fun e' => (holds' e').trans ?_⟩
          simp [remaining, holds, and_comm]

/-- Insertions only. -/
def inserts (calls : List Call) : List Op := calls.map fun x => .insert x.1 x.2.1 x.2.2

theorem outer_inserts (len : Nat) (calls : List Call) : Outer E len (inserts calls) := by
  intro before e part
  have last := part.subset (List.mem_append_right before (List.mem_singleton_self (Op.delete e)))
  simp [inserts] at last

theorem mem_remaining_inserts (calls : List Call) (e : Edge) :
    e ∈ remaining (inserts calls) ↔ e ∈ calls.map Prod.fst := by
  induction calls using List.reverseRecOn with
  | nil => simp [inserts, remaining]
  | append_singleton calls x ih =>
      simp only [inserts, remaining, List.map_append, List.foldl_append, List.map_cons, List.map_nil,
        List.foldl_cons, List.foldl_nil, List.mem_cons, List.mem_append] at ih ⊢
      rw [ih]
      simp [or_comm]

theorem size_unlink (c : Chandelier Unit) (p : Place) (a : Addr) : (c.unlink p a).size = c.size := by
  simp only [unlink]
  repeat' split
  all_goals simp [size, crash, Heap.set, Heap.free]

theorem size_perform (c : Chandelier Unit) (op : Op) :
    (perform E c op).size.1 = c.len ∧ (perform E c op).size.2 ≤ c.size.2 + 1 := by
  cases op with
  | insert e next prev => exact ⟨congrArg Prod.fst (size_insert E c e next prev),
      (congrArg Prod.snd (size_insert E c e next prev)).le⟩
  | delete e =>
      simp only [perform, deleteEdge]
      split
      · exact ⟨rfl, Nat.le_succ _⟩
      · exact ⟨rfl, Nat.le_succ _⟩
      · rw [size_unlink]
        exact ⟨rfl, Nat.le_succ _⟩

theorem size_run (E : Env) (len : Nat) (ops : List Op) :
    (run E len ops).len = len ∧ (run E len ops).size.2 ≤ ops.length := by
  induction ops using List.reverseRecOn with
  | nil => exact ⟨rfl, Nat.le_refl 0⟩
  | append_singleton ops op ih =>
      obtain ⟨same, more⟩ := size_perform (E := E) (run E len ops) op
      rw [run_snoc, List.length_append, List.length_singleton]
      exact ⟨same.trans ih.1, more.trans (Nat.succ_le_succ ih.2)⟩

/-- The counters are low as long as there are few calls. -/
theorem run_low (len : Nat) (ops : List Op) (few : ops.length < 50000000) (outer : Outer E len ops) :
    ∀ before, before <+: ops → (run E len before).Low := by
  induction ops using List.reverseRecOn with
  | nil =>
      intro before part
      rw [List.prefix_nil.mp part]
      exact low_cleared len
  | append_singleton ops op ih =>
      have part : ops <+: ops ++ [op] := List.prefix_append ..
      rw [List.length_append, List.length_singleton] at few
      have earlier := ih (by omega) fun before e h => outer before e (h.trans part)
      intro before h
      rcases List.prefix_concat_iff.mp h with rfl | h
      · obtain ⟨lists, sound, -⟩ := run_sound len ops earlier fun before e h => outer before e (h.trans part)
        obtain ⟨lists', consistent⟩ : ∃ lists', (run E len (ops ++ [op])).Consistent lists' := by
          rw [run_snoc]
          cases op with
          | insert e next prev =>
              obtain ⟨lists', sound', -⟩ := sound.insert (earlier ops List.prefix_rfl) e next prev
              exact ⟨lists', sound'.consistent⟩
          | delete e =>
              obtain ⟨lists', sound', -⟩ := sound.delete (earlier ops List.prefix_rfl)
                (outer ops e List.prefix_rfl)
              exact ⟨lists', sound'.consistent⟩
        apply consistent.low
        have size := (size_run E len (ops ++ [op])).2
        rw [List.length_append, List.length_singleton] at size
        exact size.trans_lt few
      · exact earlier before h

/-- In a run without such deletions all lists are consistent, and the next deletion
    is right just if it is no such deletion either. -/
theorem deleteEdge_exact_iff (E : Env) {len : Nat} (size : 0 < len ∧ len ≤ maxTcm) (ops : List Op)
    (low : ∀ before, before <+: ops → (run E len before).Low) (outer : Outer E len ops) :
    ∃ c, built E len ops = some c ∧ (∃ lists, c.Consistent lists) ∧ c.fault = false ∧
      ∀ e, Deletes E c e ↔ ¬ Middle E c e := by
  obtain ⟨lists, sound, -⟩ := run_sound len ops low outer
  refine ⟨run E len ops, built_inside E size.2 ops, ⟨lists, sound.consistent⟩, sound.fault, ?_⟩
  exact sound.deletes_iff (low ops List.prefix_rfl)

/-- The first of two nodes is deleted, and the edge of the second is still there. -/
theorem deleteEdge_exact_first : ∃ c, built colliding 1 [.insert ⟨1, 1⟩ none none, .insert ⟨2, 1⟩ none none] = some c ∧
    Deletes colliding c ⟨2, 1⟩ := by
  have outer : Outer colliding 1 [.insert ⟨1, 1⟩ none none, .insert ⟨2, 1⟩ none none] := by
    intro before e part
    have last := part.subset (List.mem_append_right before (List.mem_singleton_self (Op.delete e)))
    simp at last
  obtain ⟨c, done, -, -, exact⟩ := deleteEdge_exact_iff colliding (by decide) _ (run_low 1 _ (by decide) outer) outer
  obtain rfl := Option.some.inj ((built_inside colliding (by decide) _).symm.trans done)
  refine ⟨_, done, (exact _).mpr ?_⟩
  rintro ⟨p, a, n, found, -, inner, -⟩
  obtain ⟨rfl, rfl⟩ : p = (0, 0) ∧ a = 1 := by
    have here : (run colliding 1 [.insert ⟨1, 1⟩ none none, .insert ⟨2, 1⟩ none none]).seek colliding ⟨2, 1⟩ =
      some (some ((0, 0), 1)) := by decide +kernel
    simpa using found.symm.trans here
  exact inner (by decide +kernel)

/-- Of three nodes in one list the second is deleted and then the last. The first
    still leads to the last one, which is freed. -/
theorem deleteEdge_leaves_freed : ∃ c, built colliding 1 [.insert ⟨1, 1⟩ none none, .insert ⟨2, 1⟩ none none,
    .insert ⟨3, 1⟩ none none, .delete ⟨2, 1⟩] = some c ∧ ¬ Deletes colliding c ⟨1, 1⟩ :=
  ⟨_, built_inside colliding (by decide) _, fun deletes => absurd deletes.gone (by decide +kernel)⟩

end Runs

end Chandelier

end WindBell

end CuckooGraph
