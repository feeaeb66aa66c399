import Mathlib.Data.Multiset.Basic
import Mathlib.Tactic

/-! # Heaps of owned objects

Objects are referred to by addresses. An address is never given out twice, so
a reference to a freed object stays recognisable as dangling.
-/

namespace TwoLayer

variable {β : Type}

abbrev Addr := Nat

/-- The objects allocated so far; `none` where one was freed. -/
structure Heap (β : Type) where
  objects : List (Option β)
  deriving DecidableEq

namespace Heap

def empty : Heap β := ⟨[]⟩

def get (h : Heap β) (a : Addr) : Option β := h.objects[a]?.join

def alloc (h : Heap β) (b : β) : Heap β × Addr := (⟨h.objects ++ [some b]⟩, h.objects.length)

def set (h : Heap β) (a : Addr) (b : β) : Heap β := ⟨h.objects.set a (some b)⟩

def free (h : Heap β) (a : Addr) : Heap β := ⟨h.objects.set a none⟩

variable {h : Heap β} {a a' : Addr} {b b' : β}

theorem bound (live : h.get a = some b) : a < h.objects.length := by
  by_contra outside
  have absent : h.objects[a]? = none := List.getElem?_eq_none (Nat.le_of_not_lt outside)
  simp [get, absent] at live

theorem get_fresh : h.get (h.alloc b).2 = none := by simp [get, alloc]

@[simp] theorem get_alloc_self : (h.alloc b).1.get (h.alloc b).2 = some b := by simp [get, alloc]

theorem get_alloc (live : h.get a = some b) : (h.alloc b').1.get a = some b := by
  have inside := bound live
  simpa [get, alloc, List.getElem?_append_left inside] using live

theorem get_set_self (live : h.get a = some b) : (h.set a b').get a = some b' := by
  simp [get, set, bound live]

theorem get_set_ne (other : a' ≠ a) : (h.set a b').get a' = h.get a' := by
  simp [get, set, Ne.symm other]

theorem get_free_ne (other : a' ≠ a) : (h.free a).get a' = h.get a' := by
  simp [get, free, Ne.symm other]

theorem alloc_ne (live : h.get a = some b) : a ≠ (h.alloc b').2 := by
  rintro rfl
  rw [get_fresh] at live
  cases live

end Heap

/-- Three references, each of them possibly null. -/
structure Three (γ : Type) where
  s0 : Option γ
  s1 : Option γ
  s2 : Option γ
  deriving DecidableEq

namespace Three

variable {γ δ : Type}

def null : Three γ := ⟨none, none, none⟩

def get (t : Three γ) : Nat → Option γ
  | 0 => t.s0
  | 1 => t.s1
  | 2 => t.s2
  | _ => none

def set (t : Three γ) : Nat → Option γ → Three γ
  | 0, s => { t with s0 := s }
  | 1, s => { t with s1 := s }
  | 2, s => { t with s2 := s }
  | _, _ => t

def map (f : γ → Option δ) (t : Three γ) : Three δ := ⟨t.s0.bind f, t.s1.bind f, t.s2.bind f⟩

/-- The references which are not null, in order. -/
def toList (t : Three γ) : List γ := t.s0.toList ++ t.s1.toList ++ t.s2.toList

section Forall

variable {P : γ → Prop} {a b c : γ}

theorem forall_one : (∀ x ∈ (⟨some a, none, none⟩ : Three γ).toList, P x) ↔ P a := by simp [toList]

theorem forall_two : (∀ x ∈ (⟨some a, some b, none⟩ : Three γ).toList, P x) ↔ P a ∧ P b := by
  simp [toList]

theorem forall_three :
    (∀ x ∈ (⟨some a, some b, some c⟩ : Three γ).toList, P x) ↔ P a ∧ P b ∧ P c := by
  simp [toList]

end Forall

variable {t : Three γ} {i : Nat} {a b : γ}

theorem of_parts {x y z : Option γ} (h0 : t.s0 = x) (h1 : t.s1 = y) (h2 : t.s2 = z) : t = ⟨x, y, z⟩ := by
  subst h0 h1 h2
  rfl

theorem toList_eq_nil : t.toList = [] ↔ t = ⟨none, none, none⟩ := by
  obtain ⟨s0, s1, s2⟩ := t
  cases s0 <;> cases s1 <;> cases s2 <;> simp [toList]

theorem get_lt (found : t.get i = some a) : i < 3 := by
  match i, found with
  | 0, _ => decide
  | 1, _ => decide
  | 2, _ => decide

theorem mem_toList : a ∈ t.toList ↔ ∃ i, t.get i = some a := by
  simp only [toList, List.mem_append, Option.mem_toList]
  constructor
  · rintro ((h | h) | h)
    · exact ⟨0, h⟩
    · exact ⟨1, h⟩
    · exact ⟨2, h⟩
  · rintro ⟨i, found⟩
    match i, found with
    | 0, h => exact .inl (.inl h)
    | 1, h => exact .inl (.inr h)
    | 2, h => exact .inr h

theorem mem_set (member : a ∈ (t.set i (some b)).toList) : a ∈ t.toList ∨ a = b := by
  simp only [toList, List.mem_append, Option.mem_toList] at member ⊢
  match i, member with
  | 0, member | 1, member | 2, member => simp only [set, Option.some.injEq] at member; grind
  | i + 3, member => exact .inl member

theorem length_set (found : t.get i = some a) : (t.set i (some b)).toList.length = t.toList.length := by
  match i, found with
  | 0, found | 1, found | 2, found =>
      simp only [get] at found
      simp [toList, set, found]

theorem get_set_self (found : t.get i = some a) : (t.set i (some b)).get i = some b := by
  match i, found with
  | 0, _ | 1, _ | 2, _ => rfl

theorem get_set (inside : i < 3) (s : Option γ) : (t.set i s).get i = s := by
  match i, inside with
  | 0, _ | 1, _ | 2, _ => rfl

theorem mem_set_option {s : Option γ} (member : a ∈ (t.set i s).toList) : a ∈ t.toList ∨ s = some a := by
  simp only [toList, List.mem_append, Option.mem_toList] at member ⊢
  match i, member with
  | 0, member | 1, member | 2, member => simp only [set] at member; grind
  | i + 3, member => exact .inl member

theorem set_set (s s' : Option γ) : (t.set i s).set i s' = t.set i s' := by
  match i with
  | 0 | 1 | 2 => rfl
  | i + 3 => rfl

theorem get_map (f : γ → Option δ) : (t.map f).get i = (t.get i).bind f := by
  match i with
  | 0 | 1 | 2 => rfl
  | i + 3 => rfl

/-- Two references to the same object are in the same place. -/
theorem index_unique (nodup : t.toList.Nodup) {j : Nat} (here : t.get i = some a)
    (there : t.get j = some a) : i = j := by
  obtain ⟨s0, s1, s2⟩ := t
  have hi := get_lt here
  have hj := get_lt there
  simp only [toList, List.nodup_append, Option.mem_toList, List.mem_append] at nodup
  interval_cases i <;> interval_cases j <;> simp only [get] at here there <;> grind

/-- Changing what one reference refers to. -/
theorem map_set {f f' : γ → Option δ} {d : δ} (nodup : t.toList.Nodup) (found : t.get i = some a)
    (self : f' a = some d) (other : ∀ b, b ≠ a → f' b = f b) :
    t.map f' = (t.map f).set i (some d) := by
  have elsewhere : ∀ j, j ≠ i → (t.get j).bind f' = (t.get j).bind f := by
    intro j ne
    cases there : t.get j with
    | none => rfl
    | some b =>
        refine other b fun same => ne (index_unique nodup (same ▸ there) found)
  have here : (t.get i).bind f' = some d := by rw [found]; exact self
  obtain ⟨s0, s1, s2⟩ := t
  have inside := get_lt found
  interval_cases i
  · exact Three.mk.injEq .. |>.mpr ⟨here, elsewhere 1 (by decide), elsewhere 2 (by decide)⟩
  · exact Three.mk.injEq .. |>.mpr ⟨elsewhere 0 (by decide), here, elsewhere 2 (by decide)⟩
  · exact Three.mk.injEq .. |>.mpr ⟨elsewhere 0 (by decide), elsewhere 1 (by decide), here⟩

end Three

end TwoLayer
