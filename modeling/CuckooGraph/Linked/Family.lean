import CuckooGraph.Linked
import Mathlib.Logic.Function.Basic

/-! # Families of linked lists

A table of pointers refers to the first nodes of doubly linked lists which share no
node. The nodes may be in the lists of several such families at once, each of them
with two pointers of its own.
-/

namespace Linked

open TwoLayer

/-- A pointer in a node, which can be written. -/
structure Pointer (N : Type) where
  read : N → Option Addr
  write : N → Option Addr → N
  read_write : ∀ n p, read (write n p) = p

/-- Nothing but this pointer is written. -/
def Pointer.Spares {N X : Type} (r : Pointer N) (f : N → X) : Prop := ∀ n p, f (r.write n p) = f n

variable {N K X : Type} {h h' : Heap N}

/-- Write into a node; `none` if it is dead. -/
def modify (h : Heap N) (a : Addr) (f : N → N) : Option (Heap N) := (h.get a).map fun n => h.set a (f n)

/-- Link a node with the first node of a list. -/
def linkFront (next prev : Pointer N) (h : Heap N) (head : Option Addr) (a : Addr) : Option (Heap N) :=
  match head with
  | none => some h
  | some b => (modify h b fun n => prev.write n (some a)).bind fun h => modify h a fun n => next.write n (some b)

/-- Something about the nodes which is as before. -/
def Same (f : N → X) (h h' : Heap N) : Prop := ∀ a, (h'.get a).map f = (h.get a).map f

theorem Same.agrees {f : N → Option Addr} (same : Same f h h') (a : Addr) : Agrees f h h' a := by
  intro n live
  have here := same a
  rw [live] at here
  exact Option.map_eq_some_iff.mp here

theorem Same.trans {f : N → X} {h'' : Heap N} (first : Same f h h') (second : Same f h' h'') : Same f h h'' :=
  fun a => (second a).trans (first a)

theorem same_set {f : N → X} {a : Addr} {n m : N} (live : h.get a = some n) (kept : f m = f n) :
    Same f h (h.set a m) := by
  intro b
  by_cases here : b = a
  · subst here
    rw [Heap.get_set_self live, live, Option.map_some, Option.map_some, kept]
  · rw [Heap.get_set_ne here]

variable {next prev : Pointer N}

/-- The lists of the keys, with pointers to their first nodes. -/
structure Family (next prev : Pointer N) (h : Heap N) (heads : K → Option Addr) (lists : K → List Addr) : Prop where
  path : ∀ k, Path next.read h (heads k) (lists k)
  backed : ∀ k, Backed prev.read h (lists k)
  first : ∀ k a, heads k = some a → ∃ n, h.get a = some n ∧ prev.read n = none
  apart : ∀ k l a, a ∈ lists k → a ∈ lists l → k = l

namespace Family

variable {heads : K → Option Addr} {lists : K → List Addr} {k : K} {a : Addr}

theorem empty : Family next prev h (fun _ : K => none) fun _ => [] :=
  ⟨fun _ => rfl, fun _ => .nil, fun _ _ head => by simp at head, fun _ _ _ inside => absurd inside List.not_mem_nil⟩

variable (f : Family next prev h heads lists)
include f

theorem live (ha : a ∈ lists k) : ∃ n, h.get a = some n := (f.path k).live a ha

/-- The first node is in the list. -/
theorem head_cons (head : heads k = some a) : ∃ rest, lists k = a :: rest := by
  have path := f.path k
  rw [head] at path
  cases list : lists k with
  | nil =>
      rw [list] at path
      cases path
  | cons b rest =>
      rw [list] at path
      exact ⟨rest, by rw [Option.some.inj path.1]⟩

theorem head_mem (head : heads k = some a) : a ∈ lists k := by
  obtain ⟨rest, whole⟩ := f.head_cons head
  exact whole ▸ List.mem_cons_self

theorem head_nil (head : heads k = none) : lists k = [] := by
  have path := f.path k
  rw [head] at path
  exact path.unique rfl

theorem frame (forward : ∀ k, ∀ a ∈ lists k, Agrees next.read h h' a)
    (backward : ∀ k, ∀ a ∈ lists k, Agrees prev.read h h' a) :
    Family next prev h' heads lists where
  path := fun k => (f.path k).frame (forward k)
  backed := fun k => (f.backed k).frame fun a ha => backward k a (List.mem_of_mem_tail ha)
  first := fun k a head => by
    obtain ⟨n, live, null⟩ := f.first k a head
    obtain ⟨n', live', same⟩ := backward k a (f.head_mem head) n live
    exact ⟨n', live', same.trans null⟩
  apart := f.apart

theorem same (forward : Same next.read h h') (backward : Same prev.read h h') : Family next prev h' heads lists :=
  f.frame (fun _ a _ => forward.agrees a) fun _ a _ => backward.agrees a

/-- A new node elsewhere. -/
theorem alloc (n : N) : Family next prev (h.alloc n).1 heads lists :=
  have kept : ∀ k, ∀ a ∈ lists k, (h.alloc n).1.get a = h.get a := fun k a ha => by
    obtain ⟨m, live⟩ := f.live ha
    rw [live]
    exact Heap.get_alloc live
  f.frame (fun k a ha => .of_get (kept k a ha)) fun k a ha => .of_get (kept k a ha)

theorem alloc_free (n : N) (k : K) : (h.alloc n).2 ∉ lists k := fun inside => by
  obtain ⟨m, live⟩ := f.live inside
  exact Heap.alloc_ne live rfl

variable [DecidableEq K]

/-- A node is put in front of a list. -/
theorem push {n : N} (fresh : ∀ l, a ∉ lists l) (live : h'.get a = some n) (onward : next.read n = heads k)
    (back : prev.read n = none) (link : ∀ b, heads k = some b → ∃ m, h'.get b = some m ∧ prev.read m = some a)
    (forward : ∀ l, ∀ b ∈ lists l, Agrees next.read h h' b)
    (backward : ∀ l, ∀ b ∈ lists l, heads k ≠ some b → Agrees prev.read h h' b) :
    Family next prev h' (Function.update heads k (some a)) (Function.update lists k (a :: lists k)) := by
  -- the pointer back of the first node of another list is none of those which are written
  have elsewhere : ∀ l, l ≠ k → ∀ b ∈ lists l, Agrees prev.read h h' b := fun l other b hb =>
    backward l b hb fun head => other (f.apart l k b hb (f.head_mem head))
  have path := (f.path k).frame (forward k)
  refine ⟨fun l => ?_, fun l => ?_, fun l b head => ?_, fun l j b hl hj => ?_⟩
  · by_cases here : l = k
    · subst here
      rw [Function.update_self, Function.update_self]
      exact ⟨rfl, n, live, onward ▸ path⟩
    · rw [Function.update_of_ne here, Function.update_of_ne here]
      exact (f.path l).frame (forward l)
  · by_cases here : l = k
    · subst here
      rw [Function.update_self]
      cases head : heads l with
      | none =>
          rw [f.head_nil head]
          exact List.isChain_singleton a
      | some b =>
          obtain ⟨rest, whole⟩ := f.head_cons head
          have nodup := (f.path l).nodup
          have backed := f.backed l
          rw [whole] at nodup backed ⊢
          refine List.isChain_cons_cons.mpr ⟨link b head, backed.frame fun c hc => backward l c ?_ ?_⟩
          · exact whole ▸ List.mem_cons_of_mem b hc
          · rw [head]
            exact fun same => (List.nodup_cons.mp nodup).1 (Option.some.inj same ▸ hc)
    · rw [Function.update_of_ne here]
      exact (f.backed l).frame fun b hb => elsewhere l here b (List.mem_of_mem_tail hb)
  · by_cases here : l = k
    · subst here
      rw [Function.update_self] at head
      exact ⟨n, Option.some.inj head ▸ live, back⟩
    · rw [Function.update_of_ne here] at head
      obtain ⟨m, liveB, null⟩ := f.first l b head
      obtain ⟨m', live', same⟩ := elsewhere l here b (f.head_mem head) m liveB
      exact ⟨m', live', same.trans null⟩
  · have mine : ∀ i, i ≠ k → b ∈ lists i → b ∉ a :: lists k := fun i other there here =>
      (List.mem_cons.mp here).elim (fun same => fresh i (same ▸ there)) fun inside => other (f.apart i k b there inside)
    by_cases left : l = k <;> by_cases right : j = k
    · rw [left, right]
    · rw [left, Function.update_self] at hl
      rw [Function.update_of_ne right] at hj
      exact absurd hl (mine j right hj)
    · rw [right, Function.update_self] at hj
      rw [Function.update_of_ne left] at hl
      exact absurd hj (mine l left hl)
    · rw [Function.update_of_ne left] at hl
      rw [Function.update_of_ne right] at hj
      exact f.apart l j b hl hj

/-- Linking a new node whose pointers are null. Whatever is neither of the two
    pointers is as before. -/
theorem linkFront {n : N} (fresh : ∀ l, a ∉ lists l) (live : h.get a = some n) (onward : next.read n = none)
    (back : prev.read n = none) (crossed : next.Spares prev.read) (crossed' : prev.Spares next.read) :
    ∃ h', Linked.linkFront next prev h (heads k) a = some h' ∧
      Family next prev h' (Function.update heads k (some a)) (Function.update lists k (a :: lists k)) ∧
      ∀ {Y : Type} (g : N → Y), next.Spares g → prev.Spares g → Same g h h' := by
  cases head : heads k with
  | none =>
      refine ⟨h, rfl, f.push fresh live (onward.trans head.symm) back (fun b here => ?_) (fun _ b _ => .of_get rfl)
        fun _ b _ _ => .of_get rfl, fun g _ _ => fun b => rfl⟩
      simp [head] at here
  | some b =>
      have hb := f.head_mem head
      have ne : b ≠ a := fun same => fresh k (same ▸ hb)
      obtain ⟨m, liveB⟩ := f.live hb
      have liveA : (h.set b (prev.write m (some a))).get a = some n := (Heap.get_set_ne ne.symm).trans live
      have done : Linked.linkFront next prev h (some b) a =
          some ((h.set b (prev.write m (some a))).set a (next.write n (some b))) := by
        simp [Linked.linkFront, modify, liveB, liveA]
      refine ⟨_, done, f.push fresh (Heap.get_set_self liveA) ((next.read_write n _).trans head.symm)
        ((crossed n _).trans back) (fun c here => ?_) (fun l c hc => ?_) fun l c hc other => ?_, fun g hn hp => ?_⟩
      · obtain rfl := Option.some.inj (head.symm.trans here)
        exact ⟨_, (Heap.get_set_ne ne).trans (Heap.get_set_self liveB), prev.read_write m _⟩
      · exact ((same_set liveB (crossed' m _)).agrees c).trans (.set_ne fun same => fresh l (same ▸ hc))
      · have other : c ≠ b := fun same => other (same ▸ head)
        exact (Agrees.set_ne other).trans (.set_ne fun same => fresh l (same ▸ hc))
      · exact (same_set liveB (hp m _)).trans (same_set liveA (hn n _))

end Family

end Linked
