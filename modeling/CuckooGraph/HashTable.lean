import Mathlib.Logic.Function.Basic
import Mathlib.Data.List.Basic
import Mathlib.Tactic

/-! # The table of names

`hashTable<T>` keeps, for each hash value, the values which have it: a chain for
each remainder of the hash value, searched before something is put in front of it.
-/

namespace CuckooGraph

/-- `hashTableNode`; `next` is the rest of the chain. -/
structure HashTableNode (α : Type) where
  value : α
  key : Nat
  deriving DecidableEq

structure HashTable (α : Type) where
  table : Nat → List (HashTableNode α)
  tableSize : Nat

namespace HashTable

variable {α : Type}

def init (s : Nat) : HashTable α := ⟨fun _ => [], s⟩

/-- What `getID` pushes onto `IDs`. -/
def getID (t : HashTable α) (hash : Nat) : List α :=
  ((t.table (hash % t.tableSize)).filter fun np => np.key = hash).map HashTableNode.value

def countIDnums (t : HashTable α) (hash : Nat) : Nat :=
  (t.table (hash % t.tableSize)).countP fun np => np.key = hash

variable [DecidableEq α]

def insert (t : HashTable α) (hash : Nat) (value : α) : HashTable α :=
  let np := t.table (hash % t.tableSize)
  if np.any fun np => np.key = hash ∧ np.value = value then t
  else { t with table := Function.update t.table (hash % t.tableSize) (⟨value, hash⟩ :: np) }

def insertAll (t : HashTable α) (entries : List (Nat × α)) : HashTable α :=
  entries.foldl (fun t e => t.insert e.1 e.2) t

/-- Nothing is in a chain twice, and each node is in the chain of its remainder. -/
structure Chained (t : HashTable α) : Prop where
  nodup : ∀ i, (t.table i).Nodup
  place : ∀ i, ∀ np ∈ t.table i, np.key % t.tableSize = i

variable {t : HashTable α} {hash hash' : Nat} {x y : α}

omit [DecidableEq α] in
theorem countIDnums_eq (t : HashTable α) (hash : Nat) : t.countIDnums hash = (t.getID hash).length := by
  rw [countIDnums, getID, List.length_map, List.countP_eq_length_filter]

omit [DecidableEq α] in
theorem mem_getID : x ∈ t.getID hash ↔ ⟨x, hash⟩ ∈ t.table (hash % t.tableSize) := by
  simp only [getID, List.mem_map, List.mem_filter, decide_eq_true_eq]
  constructor
  · rintro ⟨np, ⟨here, rfl⟩, rfl⟩
    exact here
  · exact fun here => ⟨_, ⟨here, rfl⟩, rfl⟩

omit [DecidableEq α] in
theorem chained_init (s : Nat) : (init s : HashTable α).Chained where
  nodup := fun _ => List.nodup_nil
  place := fun i np here => by cases here

omit [DecidableEq α] in
theorem Chained.nodup_getID (ok : t.Chained) (hash : Nat) : (t.getID hash).Nodup := by
  refine ((ok.nodup _).filter _).map_on ?_
  intro a ha b hb same
  simp only [List.mem_filter, decide_eq_true_eq] at ha hb
  cases a
  cases b
  simp_all

theorem insert_tableSize (t : HashTable α) (hash : Nat) (x : α) : (t.insert hash x).tableSize = t.tableSize := by
  simp only [insert]
  split <;> rfl

theorem mem_table_insert (i : Nat) (np : HashTableNode α) :
    np ∈ (t.insert hash x).table i ↔ np ∈ t.table i ∨ i = hash % t.tableSize ∧ np = ⟨x, hash⟩ := by
  simp only [insert]
  split
  · rename_i known
    refine ⟨.inl, fun either => either.elim id ?_⟩
    rintro ⟨rfl, rfl⟩
    obtain ⟨np, here, key, value⟩ : ∃ np ∈ t.table (hash % t.tableSize), np.key = hash ∧ np.value = x := by
      simpa using known
    cases np
    simp_all
  · by_cases same : i = hash % t.tableSize
    · subst same
      simp [or_comm]
    · simp [same]

theorem mem_getID_insert : y ∈ (t.insert hash x).getID hash' ↔ y ∈ t.getID hash' ∨ hash' = hash ∧ y = x := by
  rw [mem_getID, mem_getID, insert_tableSize, mem_table_insert]
  refine or_congr_right ?_
  simp only [HashTableNode.mk.injEq]
  constructor
  · rintro ⟨-, rfl, rfl⟩
    exact ⟨rfl, rfl⟩
  · rintro ⟨rfl, rfl⟩
    exact ⟨rfl, rfl, rfl⟩

theorem Chained.insert (ok : t.Chained) (hash : Nat) (x : α) : (t.insert hash x).Chained where
  nodup := by
    intro i
    simp only [HashTable.insert]
    split
    · exact ok.nodup i
    · rename_i unknown
      by_cases same : i = hash % t.tableSize
      · subst same
        simp only [Function.update_self]
        refine List.nodup_cons.mpr ⟨fun here => unknown ?_, ok.nodup _⟩
        exact List.any_eq_true.mpr ⟨_, here, by simp⟩
      · simp only [Function.update_of_ne same]
        exact ok.nodup i
  place := by
    intro i np here
    rw [insert_tableSize]
    rcases mem_table_insert i np |>.mp here with old | ⟨rfl, rfl⟩
    · exact ok.place i np old
    · rfl

theorem Chained.insertAll (ok : t.Chained) (entries : List (Nat × α)) : (t.insertAll entries).Chained := by
  induction entries generalizing t with
  | nil => exact ok
  | cons e entries ih => exact ih (ok.insert e.1 e.2)

theorem mem_getID_insertAll (entries : List (Nat × α)) :
    x ∈ (t.insertAll entries).getID hash ↔ x ∈ t.getID hash ∨ (hash, x) ∈ entries := by
  induction entries generalizing t with
  | nil => simp [HashTable.insertAll]
  | cons e entries ih =>
      rw [HashTable.insertAll, List.foldl_cons]
      refine ih.trans ?_
      rw [mem_getID_insert, or_assoc, List.mem_cons, Prod.ext_iff]

end HashTable

end CuckooGraph
