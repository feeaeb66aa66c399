import CuckooGraph.WindBell.Lists

/-! # Searching the four cells of an edge

The nodes of an edge are in its four cells, so that a search which passes all of
these finds the edge if any list holds it. Where the counter is the smallest is
of no importance for this.
-/

namespace CuckooGraph

open TwoLayer Linked

namespace WindBell

section Indices

/-- A fold which keeps the index of what it has last taken. -/
theorem index_lt (keep : Int → Int → Prop) [DecidableRel keep] (arr : List Int) (start : Int) :
    let r := arr.zipIdx.foldl (fun (s : Int × Option Nat) (x : Int × Nat) =>
      if keep x.1 s.1 then (x.1, some x.2) else s) (start, none)
    (∀ i, r.2 = some i → i < arr.length) ∧ (r.2 = none → r.1 = start ∧ ∀ x ∈ arr, ¬ keep x start) := by
  induction arr using List.reverseRecOn with
  | nil => simp
  | append_singleton arr x ih =>
      obtain ⟨inside, nothing⟩ := ih
      simp only [List.zipIdx_append, List.foldl_append, List.zipIdx_cons, List.zipIdx_nil, List.foldl_cons,
        List.foldl_nil, List.length_append, List.length_cons, List.length_nil]
      split
      · refine ⟨fun i found => ?_, by simp⟩
        cases found
        omega
      · rename_i other
        refine ⟨fun i found => (inside i found).trans (by omega), fun none => ?_⟩
        obtain ⟨same, before⟩ := nothing none
        refine ⟨same, fun y hy => ?_⟩
        rcases List.mem_append.mp hy with hy | hy
        · exact before y hy
        · rw [List.mem_singleton.mp hy, ← same]
          exact other

theorem minIndex_some {arr : List Int} {x : Int} (hx : x ∈ arr) (low : x < maxNum) :
    ∃ i, minIndex arr = some i ∧ i < arr.length := by
  obtain ⟨inside, nothing⟩ := index_lt (· < ·) arr maxNum
  cases found : minIndex arr with
  | none => exact absurd low ((nothing found).2 x hx)
  | some i => exact ⟨i, rfl, inside i found⟩

theorem maxIndex_some {arr : List Int} {x : Int} (hx : x ∈ arr) (high : -1 < x) :
    ∃ i, maxIndex arr = some i ∧ i < arr.length := by
  obtain ⟨inside, nothing⟩ := index_lt (· > ·) arr (-1)
  cases found : maxIndex arr with
  | none => exact absurd high ((nothing found).2 x hx)
  | some i => exact ⟨i, rfl, inside i found⟩

end Indices

variable {ω : Type}

namespace Chandelier

variable {E : Env} {c : Chandelier ω} {lists : Place → List Addr} {e : Edge}

/-- All counters are below the bound which `min` starts from. -/
def Low (c : Chandelier ω) : Prop := ∀ p, c.counter p < maxNum

/-- Each edge has one node, in one of its cells. -/
structure Filed (E : Env) (c : Chandelier ω) (lists : Place → List Addr) : Prop where
  placed : ∀ p a e w, a ∈ lists p → item c.heap a = some (e, w) → p ∈ cells E c.len e
  once : ∀ a b e w w', Held lists a → Held lists b → item c.heap a = some (e, w) →
    item c.heap b = some (e, w') → a = b

theorem walk_path {h : Heap (Chain ω)} {p : Option Addr} {as : List Addr} {fuel : Nat}
    (path : Path Chain.pointerChand h p as) (enough : as.length ≤ fuel) :
    walk h e fuel p = some (as.find? fun a => (item h a).any fun x => x.1 = e) := by
  induction as generalizing p fuel with
  | nil =>
      cases path
      cases fuel <;> rfl
  | cons a as ih =>
      obtain ⟨rfl, n, live, rest⟩ := path
      cases fuel with
      | zero => simp at enough
      | succ fuel =>
          have next := ih rest (by simpa using enough)
          simp only [walk, live, List.find?_cons, item, Option.map_some, Option.any_some]
          split
          · rename_i same
            simp [same]
          · rename_i other
            simpa [other, item] using next

/-- A node of the edge in the list of a cell. -/
def Found (c : Chandelier ω) (lists : Place → List Addr) (e : Edge) (p : Place) (a : Addr) : Prop :=
  a ∈ lists p ∧ ∃ w, item c.heap a = some (e, w)

theorem seekIn_spec (k : c.Consistent lists) (ps : List Place) : ∃ r, c.seekIn e ps = some r ∧
    (∀ p a, r = some (p, a) → p ∈ ps ∧ c.Found lists e p a) ∧
    (r = none → ∀ p ∈ ps, ∀ a, ¬ c.Found lists e p a) := by
  induction ps with
  | nil => exact ⟨none, rfl, by simp, by simp⟩
  | cons q ps ih =>
      have path := (k.listed q).path
      have walked := walk_path (e := e) path path.length_le
      cases hit : (lists q).find? fun a => (item c.heap a).any fun x => x.1 = e with
      | some a =>
          refine ⟨some (q, a), by simp only [seekIn, walked, hit], fun p b same => ?_, by simp⟩
          cases same
          obtain ⟨x, here, same⟩ : ∃ x, item c.heap a = some x ∧ x.1 = e := by
            simpa [Option.any_eq_true] using List.find?_some hit
          exact ⟨List.mem_cons_self, List.mem_of_find?_eq_some hit, x.2, by rw [here, ← same]⟩
      | none =>
          obtain ⟨r, found, some, nothing⟩ := ih
          refine ⟨r, by simp only [seekIn, walked, hit, found], fun p a same => ?_, fun same p hp a here => ?_⟩
          · obtain ⟨hp, here⟩ := some p a same
            exact ⟨List.mem_cons_of_mem q hp, here⟩
          · rcases List.mem_cons.mp hp with rfl | hp
            · obtain ⟨member, w, has⟩ := here
              have unseen := List.find?_eq_none.mp hit a member
              simp [has] at unseen
            · exact nothing same p hp a here

/-- The search comes to an end. It finds a node of the edge, or there is none. -/
theorem seek_spec (k : c.Consistent lists) (filed : c.Filed E lists) (low : c.Low) :
    ∃ r, c.seek E e = some r ∧ (∀ p a, r = some (p, a) → c.Found lists e p a) ∧
      (r = none → ∀ p a, ¬ c.Found lists e p a) := by
  have member : c.counter ((cells E c.len e).head (by simp [cells])) ∈ c.cnt E e :=
    List.mem_map_of_mem (List.head_mem _)
  obtain ⟨minn, first, inside⟩ := minIndex_some member (low _)
  have inside : minn < (cells E c.len e).length := by simpa [cnt] using inside
  obtain ⟨r, found, some, nothing⟩ := seekIn_spec (e := e) k
    ((cells E c.len e).getD minn (0, 0) :: (cells E c.len e).eraseIdx minn)
  refine ⟨r, by simp only [seek, first, found], fun p a same => (some p a same).2, fun same p a here => ?_⟩
  obtain ⟨member, w, has⟩ := here
  refine nothing same p ?_ a ⟨member, w, has⟩
  rw [List.getD, List.getElem?_eq_getElem inside, Option.getD_some]
  exact (List.getElem_cons_eraseIdx_perm inside).mem_iff.mpr (filed.placed p a e w member has)

end Chandelier

end WindBell

end CuckooGraph
