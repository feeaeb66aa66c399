import CuckooGraph.Slot.Growth
import CuckooGraph.Interleaving

/-! # S-CHTs and a shared denylist

`sblacklist` is one list for all graphs of the program. `Shares F m₀ m` compares
the memory `m₀` which a graph has alone with the memory `m` in which it finds
the entries `F` of others on the list. Growing pushes at the end of the list,
tests its length, and takes from it whatever has the source.
-/

namespace CuckooGraph

open TwoLayer

variable {α β : Type}

/-- `m` is `m₀` with the entries `F` strewn into `sblacklist`. -/
structure Shares (F : List (Arc α)) (m₀ m : Memory α) : Prop where
  heap : m.heap = m₀.heap
  rands : m.rands = m₀.rands
  fault : m.fault = m₀.fault
  list : Interleaved m₀.sblacklist F m.sblacklist

/-- Two results which differ in the entries of others only. -/
def Agree (F : List (Arc α)) (r₀ r : Memory α × β) : Prop := Shares F r₀.1 r.1 ∧ r.2 = r₀.2

/-- No entry of the source is among them. -/
def Foreign (F : List (Arc α)) (src : Key) : Prop := ∀ d ∈ F, d.src ≠ src

variable {F : List (Arc α)} {m₀ m : Memory α} {src : Key}

namespace Shares

theorem deref (h : Shares F m₀ m) (p : Option Addr) : m.deref p = m₀.deref p := by
  rw [Memory.deref, Memory.deref, h.heap]

theorem crash (h : Shares F m₀ m) : Shares F m₀.crash m.crash := ⟨h.heap, h.rands, rfl, h.list⟩

theorem deny (h : Shares F m₀ m) (left : List α) : Shares F (m₀.deny src left) (m.deny src left) :=
  ⟨h.heap, h.rands, h.fault, h.list.append _⟩

/-- The S-CHTs and the draws change alike. -/
theorem update (h : Shares F m₀ m) (heap : Heap (Cuckoo α)) (rands : Nat) :
    Shares F { m₀ with heap := heap, rands := rands } { m with heap := heap, rands := rands } :=
  ⟨rfl, rfl, h.fault, h.list⟩

theorem draw (h : Shares F m₀ m) (rands : Nat) : Shares F { m₀ with rands := rands } { m with rands := rands } :=
  ⟨h.heap, rfl, h.fault, h.list⟩

theorem beq_clear (clear : Foreign F src) : ∀ d ∈ F, (d.src == src) = false := fun d hd => by
  simpa using clear d hd

theorem own (h : Shares F m₀ m) (clear : Foreign F src) : m.own src = m₀.own src := by
  rw [Memory.own, h.list.filter_clear (beq_clear clear)]
  rfl

theorem any (h : Shares F m₀ m) (clear : Foreign F src) :
    (m.sblacklist.any fun d => d.src == src) = m₀.sblacklist.any fun d => d.src == src :=
  h.list.any_clear (beq_clear clear)

end Shares

variable [Entry α] (E : Env) {slot : Three Addr}

theorem Shares.opens (h : Shares F m₀ m) (clear : Foreign F src) (l1 l2 : Nat) (e : α) :
    Agree F (openTable E m₀ src l1 l2 e) (openTable E m src l1 l2 e) := by
  rw [openTable_eq, openTable_eq, h.heap, h.rands, h.fault, h.own clear]
  have others := h.list.drop_clear (beq_clear clear)
  exact ⟨⟨rfl, rfl, rfl, others.append _⟩, rfl⟩

theorem Shares.merges (h : Shares F m₀ m) (src : Key) (a0 a1 a2 : Addr) (c0 c1 c2 : Cuckoo α) :
    Agree F (mergeSlots E m₀ src a0 a1 a2 c0 c1 c2) (mergeSlots E m src a0 a1 a2 c0 c1 c2) := by
  simp only [mergeSlots, h.heap, h.rands]
  exact ⟨(h.update _ _).deny _, rfl⟩

/-- One more S-CHT takes the denylisted entries of the source, be they its own. -/
theorem Shares.grows (h : Shares F m₀ m) (clear : Foreign F src) (e : α) :
    Agree F (grow E m₀ src slot e) (grow E m src slot e) := by
  unfold grow
  split
  · simp only [h.heap, h.rands]
    exact ⟨(h.update _ _).deny _, rfl⟩
  · rw [h.deref]
    split
    · rename_i c0 _
      obtain ⟨opened, same⟩ := h.opens E clear (c0.len1 / 2) (c0.len2 / 2) e
      exact ⟨opened, by simp only [same]⟩
    · exact ⟨h.crash, rfl⟩
  · rw [h.deref]
    split
    · rename_i c1 _
      obtain ⟨opened, same⟩ := h.opens E clear c1.len1 c1.len2 e
      exact ⟨opened, by simp only [same]⟩
    · exact ⟨h.crash, rfl⟩
  · rw [h.deref, h.deref, h.deref]
    split
    · rename_i a0 c0 a1 c1 a2 c2 _ _ _
      obtain ⟨merged, table⟩ := h.merges E src a0 a1 a2 c0 c1 c2
      obtain ⟨opened, same⟩ := merged.opens E clear
        ((mergeSlots E m₀ src a0 a1 a2 c0 c1 c2).2.2.len1 / 2)
        ((mergeSlots E m₀ src a0 a1 a2 c0 c1 c2).2.2.len2 / 2) e
      simp only [table]
      exact ⟨opened, by simp only [same]⟩
    · exact ⟨h.crash, rfl⟩

omit [Entry α] in
theorem Shares.roomy (h : Shares F m₀ m) : roomySlot m slot = roomySlot m₀ slot := by
  simp only [roomySlot, h.deref]

/-- What an insertion into the S-CHTs of a source reads of `sblacklist` is its
    own: the length, and if no S-CHT has room or the list is full, the entries
    of the source. -/
structure Grows (F : List (Arc α)) (m₀ : Memory α) (src : Key) (slot : Three Addr) : Prop where
  counted : m₀.sblacklist.length < sbl → m₀.sblacklist.length + F.length < sbl
  opened : roomySlot m₀ slot = none ∨ sbl ≤ m₀.sblacklist.length → Foreign F src

theorem Shares.inserts (h : Shares F m₀ m) (grows : Grows F m₀ src slot) (x : α) :
    Agree F (insertChts E m₀ src slot x) (insertChts E m src slot x) := by
  unfold insertChts
  rw [h.roomy]
  split
  · rename_i full
    exact h.grows E (grows.opened (.inl full)) x
  · rename_i i a c _
    simp only [h.heap, h.rands]
    split
    · exact ⟨h.update _ _, rfl⟩
    · rename_i mykick _
      have length := h.list.length
      by_cases short : m₀.sblacklist.length < sbl
      · have short' : m.sblacklist.length < sbl := length ▸ grows.counted short
        rw [if_pos short, if_pos short']
        exact ⟨(h.update _ _).deny _, rfl⟩
      · have long : ¬ m.sblacklist.length < sbl := by omega
        rw [if_neg short, if_neg long]
        exact (h.update _ _).grows E (grows.opened (.inr (Nat.le_of_not_lt short))) mykick

/-- The change to an S-CHT only pushes. -/
theorem Shares.transforms (h : Shares F m₀ m) (cells : List α) (x : α) :
    Agree F (transform E m₀ src cells x) (transform E m src cells x) := by
  simp only [transform, h.heap, h.rands]
  exact ⟨(h.update _ _).deny _, rfl⟩

theorem Shares.insertsInline (h : Shares F m₀ m) (update : α → α) (pt : Nat) (cells : List α) (x : α) :
    Agree F (insertInline E m₀ src update pt cells x) (insertInline E m src update pt cells x) := by
  unfold insertInline
  split
  · exact ⟨h, rfl⟩
  · split
    · exact h.transforms E cells x
    · split
      · exact ⟨h, rfl⟩
      · exact ⟨h.crash, rfl⟩

end CuckooGraph
