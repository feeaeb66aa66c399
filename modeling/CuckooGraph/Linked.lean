import CuckooGraph.Table.Heap

/-! # Linked lists on a heap

`Seg` follows the forward pointers of a list from one reference to another,
`Backed` says that the backward pointers of all nodes but the first agree with
them. Both look at the nodes of the list only, so a write elsewhere keeps them.
-/

namespace Linked

open TwoLayer

variable {N : Type} {next prev : N → Option Addr} {h h' : Heap N}

/-- From `p`, the forward pointers lead over the nodes of a list to `q`. -/
def Seg (next : N → Option Addr) (h : Heap N) : Option Addr → List Addr → Option Addr → Prop
  | p, [], q => p = q
  | p, a :: as, q => p = some a ∧ ∃ n, h.get a = some n ∧ Seg next h (next n) as q

/-- A list which ends with a null pointer. -/
abbrev Path (next : N → Option Addr) (h : Heap N) (p : Option Addr) (as : List Addr) : Prop :=
  Seg next h p as none

/-- The backward pointer of each node but the first leads to the node before it. -/
def Backed (prev : N → Option Addr) (h : Heap N) (as : List Addr) : Prop :=
  as.IsChain fun a b => ∃ n, h.get b = some n ∧ prev n = some a

/-- A pointer of the node `a` has not changed. -/
def Agrees (f : N → Option Addr) (h h' : Heap N) (a : Addr) : Prop :=
  ∀ n, h.get a = some n → ∃ n', h'.get a = some n' ∧ f n' = f n

namespace Agrees

variable {f : N → Option Addr} {h'' : Heap N} {a b : Addr} {n n' : N}

theorem of_get (same : h'.get a = h.get a) : Agrees f h h' a := fun n live => ⟨n, same.trans live, rfl⟩

theorem trans (first : Agrees f h h' a) (second : Agrees f h' h'' a) : Agrees f h h'' a := by
  intro n live
  obtain ⟨n', live', same⟩ := first n live
  obtain ⟨n'', live'', same'⟩ := second n' live'
  exact ⟨n'', live'', same'.trans same⟩

theorem set_ne (other : a ≠ b) : Agrees f h (h.set b n') a := of_get (Heap.get_set_ne other)

/-- A write to another field. -/
theorem set (live : h.get b = some n) (same : f n' = f n) : Agrees f h (h.set b n') a := by
  by_cases mine : a = b
  · subst mine
    intro m here
    obtain rfl := Option.some.inj (here.symm.trans live)
    exact ⟨n', Heap.get_set_self live, same⟩
  · exact set_ne mine

theorem free (other : a ≠ b) (kept : Agrees f h h' a) : Agrees f h (h'.free b) a :=
  kept.trans (of_get (Heap.get_free_ne other))

end Agrees

namespace Seg

variable {p q r : Option Addr} {as bs : List Addr} {a : Addr}

theorem append (first : Seg next h p as q) (second : Seg next h q bs r) : Seg next h p (as ++ bs) r := by
  induction as generalizing p with
  | nil => exact first.symm ▸ second
  | cons a as ih =>
      obtain ⟨start, n, live, rest⟩ := first
      exact ⟨start, n, live, ih rest⟩

theorem split (seg : Seg next h p (as ++ bs) r) : ∃ q, Seg next h p as q ∧ Seg next h q bs r := by
  induction as generalizing p with
  | nil => exact ⟨p, rfl, seg⟩
  | cons a as ih =>
      obtain ⟨start, n, live, rest⟩ := seg
      obtain ⟨q, first, second⟩ := ih rest
      exact ⟨q, ⟨start, n, live, first⟩, second⟩

theorem single {n : N} (live : h.get a = some n) : Seg next h (some a) [a] (next n) := ⟨rfl, n, live, rfl⟩

/-- A segment in front of a node leads to this node. -/
theorem split_at (seg : Seg next h p (as ++ a :: bs) r) :
    ∃ n, h.get a = some n ∧ Seg next h p as (some a) ∧ Seg next h (next n) bs r := by
  obtain ⟨q, first, start, n, live, rest⟩ := split seg
  exact ⟨n, live, start ▸ first, rest⟩

theorem live (seg : Seg next h p as q) : ∀ a ∈ as, ∃ n, h.get a = some n := by
  induction as generalizing p with
  | nil => simp
  | cons a as ih =>
      obtain ⟨-, n, live, rest⟩ := seg
      intro b hb
      rcases List.mem_cons.mp hb with rfl | hb
      · exact ⟨n, live⟩
      · exact ih rest b hb

/-- A segment is kept by a heap in which its nodes lead on as before. -/
theorem frame (seg : Seg next h p as q) (kept : ∀ a ∈ as, Agrees next h h' a) : Seg next h' p as q := by
  induction as generalizing p with
  | nil => exact seg
  | cons a as ih =>
      obtain ⟨start, n, live, rest⟩ := seg
      obtain ⟨n', live', same⟩ := kept a List.mem_cons_self n live
      exact ⟨start, n', live', same ▸ ih rest fun b hb => kept b (List.mem_cons_of_mem a hb)⟩

theorem unique (first : Seg next h p as none) (second : Seg next h p bs none) : as = bs := by
  induction as generalizing p bs with
  | nil =>
      cases bs with
      | nil => rfl
      | cons b bs => exact absurd (first.symm.trans second.1) (by simp)
  | cons a as ih =>
      obtain ⟨start, n, live, rest⟩ := first
      cases bs with
      | nil => exact absurd (start.symm.trans second) (by simp)
      | cons b bs =>
          obtain ⟨start', n', live', rest'⟩ := second
          obtain rfl : a = b := Option.some.inj (start.symm.trans start')
          obtain rfl : n = n' := Option.some.inj (live.symm.trans live')
          rw [ih rest rest']

/-- A list which ends does not come back to a node. -/
theorem nodup (path : Seg next h p as none) : as.Nodup := by
  induction as generalizing p with
  | nil => exact List.nodup_nil
  | cons a as ih =>
      obtain ⟨start, n, live, rest⟩ := path
      refine List.nodup_cons.mpr ⟨fun again => ?_, ih rest⟩
      obtain ⟨xs, ys, split⟩ := List.append_of_mem again
      obtain ⟨n', live', -, after⟩ := (split ▸ rest : Seg next h (next n) (xs ++ a :: ys) none).split_at
      obtain rfl : n = n' := Option.some.inj (live.symm.trans live')
      have same := congrArg List.length (rest.unique after)
      rw [split] at same
      simp at same
      omega

theorem length_le (path : Seg next h p as none) : as.length ≤ h.objects.length := by
  have inside : as ⊆ List.range h.objects.length := fun a ha => by
    obtain ⟨n, live⟩ := path.live a ha
    exact List.mem_range.mpr (Heap.bound live)
  simpa using path.nodup.length_le_of_subset inside

/-- A node which is not the first is passed by. -/
theorem skip {b : Addr} {n m : N} (path : Seg next h p (as ++ a :: b :: bs) none) (live : h.get b = some n)
    (before : h'.get a = some m) (onward : next m = next n) (kept : ∀ c ∈ as ++ bs, Agrees next h h' c) :
    Seg next h' p (as ++ a :: bs) none := by
  obtain ⟨_, -, front, rest⟩ := path.split_at
  obtain ⟨-, n', live', rear⟩ := rest
  obtain rfl := Option.some.inj (live.symm.trans live')
  have rear := rear.frame fun c hc => kept c (List.mem_append_right as hc)
  exact (front.frame fun c hc => kept c (List.mem_append_left bs hc)).append ⟨rfl, m, before, onward ▸ rear⟩

end Seg

namespace Backed

variable {as bs : List Addr} {a b : Addr}

theorem frame (backed : Backed prev h as) (kept : ∀ a ∈ as.tail, Agrees prev h h' a) :
    Backed prev h' as :=
  List.IsChain.imp_of_mem_tail_imp (fun _ b _ hb ⟨n, live, back⟩ =>
    have ⟨n', live', same⟩ := kept b hb n live
    ⟨n', live', same.trans back⟩) backed

theorem front (backed : Backed prev h (as ++ bs)) : Backed prev h as := (List.isChain_append.mp backed).1

/-- Two nodes in a row. -/
theorem pair (backed : Backed prev h (as ++ a :: b :: bs)) : ∃ n, h.get b = some n ∧ prev n = some a :=
  (List.isChain_append_cons_cons.mp backed).2.1

end Backed

/-- A doubly linked list with pointers to its first and its last node. An empty
    list says nothing about the latter. -/
structure DList (next prev : N → Option Addr) (h : Heap N) (head tail : Option Addr) (as : List Addr) :
    Prop where
  path : Path next h head as
  backed : Backed prev h as
  last : ∀ a, as.getLast? = some a → tail = some a

namespace DList

variable {head tail : Option Addr} {as bs : List Addr} {a b : Addr}

theorem nil : DList next prev h none tail [] := ⟨rfl, .nil, by simp⟩

theorem frame (d : DList next prev h head tail as) (forward : ∀ a ∈ as, Agrees next h h' a)
    (backward : ∀ a ∈ as.tail, Agrees prev h h' a) : DList next prev h' head tail as :=
  ⟨d.path.frame forward, d.backed.frame backward, d.last⟩

theorem head_nil (d : DList next prev h none tail as) : as = [] := d.path.unique rfl

theorem head_cons (d : DList next prev h (some a) tail as) : ∃ rest, as = a :: rest := by
  obtain ⟨path, -, -⟩ := d
  cases as with
  | nil => cases path
  | cons b rest => exact ⟨rest, by rw [Option.some.inj path.1]⟩

/-- A node is put in front. -/
theorem push (d : DList next prev h head tail as) {n : N} (live : h'.get a = some n) (onward : next n = head)
    (link : ∀ b, head = some b → ∃ n, h'.get b = some n ∧ prev n = some a)
    (forward : ∀ b ∈ as, Agrees next h h' b) (backward : ∀ b ∈ as.tail, Agrees prev h h' b) :
    DList next prev h' (some a) (if head = none then some a else tail) (a :: as) := by
  have kept := d.frame forward backward
  cases head with
  | none =>
      obtain rfl := d.head_nil
      refine ⟨⟨rfl, n, live, onward⟩, List.isChain_singleton a, by simp⟩
  | some b =>
      obtain ⟨rest, rfl⟩ := d.head_cons
      refine ⟨⟨rfl, n, live, onward.symm ▸ kept.path⟩, List.isChain_cons_cons.mpr ⟨link b rfl, kept.backed⟩, ?_⟩
      simpa using d.last

/-- The first node is left out. The pointer to the last one matters if there is another. -/
theorem behead {n : N} (d : DList next prev h head tail (a :: as)) (tail' : Option Addr)
    (live : h.get a = some n) (same : next n ≠ none → tail' = tail) (forward : ∀ b ∈ as, Agrees next h h' b)
    (backward : ∀ b ∈ as.tail, Agrees prev h h' b) : DList next prev h' (next n) tail' as := by
  obtain ⟨-, n', live', rest⟩ := d.path
  obtain rfl := Option.some.inj (live.symm.trans live')
  cases as with
  | nil => exact ⟨rest, .nil, by simp⟩
  | cons b as =>
      have backed : Backed prev h (b :: as) := (List.isChain_cons_cons.mp d.backed).2
      refine ⟨rest.frame forward, backed.frame backward, ?_⟩
      intro c last
      rw [same (by rw [rest.1]; simp)]
      exact d.last c (by simpa using last)

/-- The last node is left out. -/
theorem pop (d : DList next prev h head tail (as ++ [a, b])) {n : N} (live : h'.get a = some n)
    (onward : next n = none) (forward : ∀ c ∈ as, Agrees next h h' c)
    (backward : ∀ c ∈ (as ++ [a]).tail, Agrees prev h h' c) :
    DList next prev h' head (some a) (as ++ [a]) := by
  obtain ⟨m, -, before, -⟩ := d.path.split_at
  have backed : Backed prev h (as ++ [a]) := by
    have all := d.backed
    rw [← List.singleton_append, ← List.append_assoc] at all
    exact all.front
  refine ⟨(before.frame forward).append (onward ▸ Seg.single live), backed.frame backward, ?_⟩
  simp

end DList

end Linked
