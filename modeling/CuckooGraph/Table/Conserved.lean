import CuckooGraph.Table.Bulk

/-! # Tables whose items have names

A sound table has every item in its place, and no two items of one name. An
insertion of a new name keeps it sound, whether it ends with a free cell or with
one item too many.
-/

namespace TwoLayer

variable {α κ : Type} {w : Nat}

namespace Table

/-- Items in place, each name once, the count right and free cells cleared. -/
structure Sound (H : Cells α) (key : α → κ) (t : Table w α) : Prop where
  ready : t.Ready
  placed : t.Placed H
  once : ((t.stored H).map key).Nodup
  counted : t.Counted H
  cleared : ∀ c ∈ t.cells, H.free c = true → c = H.zero

instance (t : Table w α) : Decidable t.Ready := inferInstanceAs (Decidable (∀ flag, 0 < (t.side flag).length))

instance (H : Cells α) (hash : α → Nat) (l : Layer w α) : Decidable (Layer.Placed H hash l) :=
  inferInstanceAs (Decidable (∀ i, ∀ hi : i < l.length, ∀ x ∈ l[i].cells, H.free x = false → hash x % l.length = i))

instance (H : Cells α) (t : Table w α) : Decidable (t.Placed H) :=
  inferInstanceAs (Decidable (∀ flag, Layer.Placed H (H.hash flag) (t.side flag)))

instance (H : Cells α) (t : Table w α) : Decidable (t.Counted H) :=
  inferInstanceAs (Decidable (t.num = (t.stored H).card))

instance [DecidableEq α] [DecidableEq κ] (H : Cells α) (key : α → κ) (t : Table w α) : Decidable (t.Sound H key) :=
  decidable_of_iff (t.Ready ∧ t.Placed H ∧ ((t.stored H).map key).Nodup ∧ t.Counted H ∧
      ∀ c ∈ t.cells, H.free c = true → c = H.zero)
    ⟨fun ⟨ready, placed, once, counted, cleared⟩ => ⟨ready, placed, once, counted, cleared⟩,
      fun sound => ⟨sound.ready, sound.placed, sound.once, sound.counted, sound.cleared⟩⟩

/-- The insertion of `item` has added it, or has added it and taken another one out. -/
structure Conserves (H : Cells α) (key : α → κ) (t : Table w α) (item : α) (r : Outcome w α) : Prop where
  sound : r.table.Sound H key
  added : r.left = none → r.table.stored H = t.stored H + {item} ∧ r.table.num = t.num + 1
  kicked : ∀ kick, r.left = some kick → r.table.stored H + {kick} = t.stored H + {item} ∧
    kick ∈ t.stored H + {item} ∧ key kick ∉ (r.table.stored H).map key ∧ r.table.num = t.num

variable {H : Cells α} {key : α → κ} {t : Table w α} {item : α} {r : Outcome w α}

/-- Items of different names are kept apart. -/
theorem apart_of_once (named : ∀ x y, H.same x y = true → key x = key y) {s : Multiset α}
    (once : (s.map key).Nodup) : H.Apart s := by
  intro a b le
  by_contra same
  rw [Bool.not_eq_false] at same
  have two := Multiset.nodup_of_le (Multiset.map_le_map (f := key) le) once
  rw [Multiset.map_cons, Multiset.map_cons, named a b same] at two
  exact (Multiset.nodup_cons.mp two).1 (Multiset.mem_cons_self _ _)

theorem Sound.cons_once (sound : t.Sound H key) (absent : key item ∉ (t.stored H).map key) :
    ((item ::ₘ t.stored H).map key).Nodup := by
  rw [Multiset.map_cons]
  exact Multiset.nodup_cons.mpr ⟨absent, sound.once⟩

theorem Settled.conserves (settled : Settled H t item r) (named : ∀ x y, H.same x y = true → key x = key y)
    (sound : t.Sound H key) (hx : H.free item = false) (absent : key item ∉ (t.stored H).map key) :
    Conserves H key t item r := by
  have once := sound.cons_once absent
  have apart := apart_of_once named once
  have stored := settled.stored apart
  have num := settled.num apart
  have together := settled.together apart
  rw [← together, Multiset.map_add] at once
  constructor
  case sound =>
    refine ⟨settled.size.ready sound.ready, settled.placed sound.placed,
      Multiset.nodup_of_le (Multiset.le_add_left _ _) once, settled.counted apart sound.counted, fun c hc free => ?_⟩
    rcases settled.cells c hc with old | rfl
    · exact sound.cleared c old free
    · rw [hx] at free
      cases free
  case added =>
    intro none
    rw [none] at stored num
    constructor
    · simpa only [Option.toList_none, Multiset.coe_nil, add_zero] using stored
    · simpa using num
  case kicked =>
    intro kick left
    rw [left] at stored num once
    simp only [Option.toList_some, Multiset.coe_singleton] at stored num once
    refine ⟨stored, ?_, ?_, by simpa using num⟩
    · rw [← stored]
      exact Multiset.mem_add.mpr (.inr (Multiset.mem_singleton_self kick))
    · rw [Multiset.map_singleton, Multiset.singleton_add] at once
      exact (Multiset.nodup_cons.mp once).1

/-- An insertion of a new name, whatever the draws are. -/
theorem Sound.insert (sound : t.Sound H key) (law : H.Lawful) (named : ∀ x y, H.same x y = true → key x = key y)
    (hw : 0 < w) (times : Nat) (rand : Nat → Nat) (draws : Nat) (hx : H.free item = false)
    (absent : key item ∉ (t.stored H).map key) : Conserves H key t item (t.insert H times rand draws item) :=
  (insert_settled law hw sound.ready times rand draws hx).conserves named sound hx absent

end Table

end TwoLayer
