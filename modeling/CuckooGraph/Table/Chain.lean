import CuckooGraph.Table.Kick

/-! # What a kick chain comes to

An item is stored if one of its own buckets has a free cell, or the other bucket of
one of the items kicked out. Which buckets these are does not depend on how an
insertion goes on.
-/

namespace TwoLayer

namespace Table

variable {α : Type} {w : Nat}

/-- The bucket of `x` in one layer has a free cell. -/
def Vacant (H : Cells α) (t : Table w α) (flag : Bool) (x : α) : Prop :=
  ∃ c ∈ (Layer.bucketAt H (t.side flag) (Layer.pos (H.hash flag) (t.side flag) x)).cells, H.free c = true

/-- One of the next `times` kicks drives out an item whose other bucket has a free cell. -/
def Opens (H : Cells α) (rand : Nat → Nat) : Nat → Bool → Table w α → Nat → α → Prop
  | 0, _, _, _, _ => False
  | times + 1, flag, t, draws, ins =>
      t.Vacant H (!flag) (kicked H t flag (rand draws) ins) ∨
        Opens H rand times (!flag) (swap H t flag (rand draws) ins) (draws + 1) (kicked H t flag (rand draws) ins)

/-- An item comes to a free cell, directly or through kicks. -/
def Admits (H : Cells α) (times : Nat) (rand : Nat → Nat) (t : Table w α) (draws : Nat) (x : α) : Prop :=
  t.Vacant H true x ∨ t.Vacant H false x ∨ Opens H rand times true t draws x

variable {H : Cells α} {t : Table w α} {x : α}

instance (flag : Bool) : Decidable (t.Vacant H flag x) :=
  inferInstanceAs (Decidable (∃ c ∈ _, H.free c = true))

instance decidableOpens (rand : Nat → Nat) : ∀ (times : Nat) (flag : Bool) (t : Table w α) (draws : Nat) (x : α),
    Decidable (Opens H rand times flag t draws x)
  | 0, _, _, _, _ => isFalse id
  | times + 1, flag, t, draws, ins =>
      have := decidableOpens rand times (!flag) (swap H t flag (rand draws) ins) (draws + 1)
        (kicked H t flag (rand draws) ins)
      inferInstanceAs (Decidable (_ ∨ _))

instance (times : Nat) (rand : Nat → Nat) (draws : Nat) : Decidable (t.Admits H times rand draws x) :=
  inferInstanceAs (Decidable (_ ∨ _ ∨ _))

section Never

variable (never : ∀ x y, H.same x y = false)

include never

/-- A table which does not look for an item takes it just if there is a free cell. -/
theorem put_vacant (flag : Bool) (x : α) :
    (Layer.put H (H.hash flag) (t.side flag) x = .full ∧ ¬ t.Vacant H flag x) ∨
      ∃ l, Layer.put H (H.hash flag) (t.side flag) x = .stored l ∧ t.Vacant H flag x := by
  cases tried : Layer.put H (H.hash flag) (t.side flag) x with
  | full =>
      refine .inl ⟨rfl, ?_⟩
      rintro ⟨c, hc, free⟩
      rw [Layer.put_full tried c hc] at free
      cases free
  | present =>
      rw [Layer.put, Bucket.put, if_neg (by simp [never])] at tried
      split at tried <;> cases tried
  | stored l =>
      obtain ⟨b, hb, -⟩ := Layer.put_stored_cases tried
      obtain ⟨j, hj, free, -⟩ := Bucket.put_stored hb
      exact .inr ⟨l, rfl, _, List.getElem_mem hj, free⟩

theorem kickLoop_left_iff (rand : Nat → Nat) (times : Nat) (flag : Bool) (t : Table w α) (draws : Nat) (ins : α) :
    (kickLoop H rand times flag t draws ins).left = none ↔ Opens H rand times flag t draws ins := by
  induction times generalizing flag t draws ins with
  | zero => simp [kickLoop, Opens]
  | succ times ih =>
      rw [kickLoop_succ, Opens]
      rcases put_vacant never (t := t) (!flag) (kicked H t flag (rand draws) ins) with
        ⟨full, blocked⟩ | ⟨l, stored, vacant⟩
      · rw [full]
        simp only [blocked, false_or]
        exact ih (!flag) _ (draws + 1) _
      · rw [stored]
        simp only [vacant, true_or]

/-- Nothing is left over just if there is a way to a free cell. -/
theorem insert_left_iff (times : Nat) (rand : Nat → Nat) (t : Table w α) (draws : Nat) (x : α) :
    (t.insert H times rand draws x).left = none ↔ t.Admits H times rand draws x := by
  unfold Table.insert Admits
  rcases put_vacant never (t := t) true x with ⟨full, blocked⟩ | ⟨l, stored, vacant⟩
  · have full : Layer.put H (H.hash true) t.layer1 x = .full := full
    rw [full]
    rcases put_vacant never (t := t) false x with ⟨full, blocked'⟩ | ⟨l, stored, vacant⟩
    · have full : Layer.put H (H.hash false) t.layer2 x = .full := full
      rw [full]
      simp only [blocked, blocked', false_or]
      exact kickLoop_left_iff never rand times true t draws x
    · have stored : Layer.put H (H.hash false) t.layer2 x = .stored l := stored
      rw [stored]
      simp only [vacant, true_or, or_true]
  · have stored : Layer.put H (H.hash true) t.layer1 x = .stored l := stored
    rw [stored]
    simp only [vacant, true_or]

end Never

end Table

end TwoLayer
