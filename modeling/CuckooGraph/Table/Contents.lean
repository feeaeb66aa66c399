import CuckooGraph.Table.Merge

/-! # What the cells of a table can hold

Whatever its hashes, its sizes and its draws are, a table holds what it held,
what was inserted, and cleared cells.
-/

namespace TwoLayer

variable {α : Type} {w : Nat} {P : α → Prop} {H : Cells α} {hash : α → Nat}

namespace Layer

/-- All cells of the layer have the property. -/
def Only (P : α → Prop) (l : Layer w α) : Prop := ∀ c ∈ cells l, P c

theorem only_set {l : Layer w α} {i : Nat} {b : Bucket w α} (only : Only P l) (hb : ∀ c ∈ b.cells, P c) :
    Only P (l.set i b) := by
  intro c hc
  cases mem_cells_set hc with
  | inl old => exact only c old
  | inr new => exact hb c new

section Blank

variable (blank : P H.zero)

include blank

theorem only_bucketAt {l : Layer w α} (only : Only P l) (i : Nat) : ∀ c ∈ (bucketAt H l i).cells, P c := by
  intro c hc
  by_cases inside : i < l.length
  · rw [bucketAt_eq inside] at hc
    exact only c (cells_getElem inside hc)
  · have outside : bucketAt H l i = Bucket.empty H := by
      simp [bucketAt, List.getD_eq_getElem?_getD, Nat.le_of_not_lt inside]
    rw [outside] at hc
    rwa [List.eq_of_mem_replicate hc]

theorem only_put {l l' : Layer w α} {x : α} (only : Only P l) (hx : P x)
    (tried : put H hash l x = .stored l') : Only P l' := by
  obtain ⟨b, hb, rfl⟩ := put_stored_cases tried
  obtain ⟨j, -, -, rfl⟩ := Bucket.put_stored hb
  apply only_set only
  intro c hc
  cases Bucket.mem_set hc with
  | inl old => exact only_bucketAt blank only _ c old
  | inr new => exact new ▸ hx

theorem only_double (hash : α → Nat) {l : Layer w α} (only : Only P l) : Only P (double H hash l) := by
  have keep : ∀ (f : Nat → α → α), (∀ i x, P x → P (f i x)) → ∀ (k : Nat),
      Only P ((l.zipIdx k).map fun p => p.1.map (f p.2)) := by
    intro f kept k c hc
    simp only [cells, List.mem_flatMap, List.mem_map] at hc
    obtain ⟨_, ⟨⟨b, i⟩, hb, rfl⟩, hc⟩ := hc
    obtain ⟨x, hx, rfl⟩ := List.mem_map.mp hc
    apply kept i x
    apply only x
    obtain ⟨-, -, same⟩ := List.mem_zipIdx hb
    rw [same] at hx
    exact cells_getElem _ hx
  intro c hc
  simp only [double, cells, List.flatMap_append, List.mem_append] at hc
  cases hc with
  | inl low =>
      refine keep (fun i => keepLow H hash (l.length * 2) i) (fun i x hx => ?_) 0 c low
      unfold keepLow
      split
      · exact hx
      · split
        · exact blank
        · exact hx
  | inr high =>
      refine keep (fun i => keepHigh H hash (l.length * 2) i) (fun i x hx => ?_) 0 c high
      unfold keepHigh
      split
      · exact hx
      · split
        · exact hx
        · exact blank

theorem only_zipItems {a b : Layer w α} (ha : Only P a) (hb : Only P b) (k : Nat) :
    ∀ x ∈ zipItems H k a b, P x := by
  intro x hx
  simp only [zipItems, List.mem_flatMap] at hx
  obtain ⟨i, -, hx⟩ := hx
  cases List.mem_append.mp (List.mem_of_mem_filter hx) with
  | inl first => exact only_bucketAt blank ha i x first
  | inr second => exact only_bucketAt blank hb i x second

theorem only_rehash (hash : α → Nat) {xs : List α} (hxs : ∀ x ∈ xs, P x) {l : Layer w α} (only : Only P l) :
    Only P (rehash H hash xs l).layer ∧ ∀ x ∈ (rehash H hash xs l).queue, P x := by
  induction xs generalizing l with
  | nil => exact ⟨only, by simp [rehash]⟩
  | cons x xs ih =>
      have hx := hxs x List.mem_cons_self
      have later := fun y hy => hxs y (List.mem_cons_of_mem x hy)
      unfold rehash
      cases tried : put H hash l x with
      | full =>
          obtain ⟨layer, queue⟩ := ih later only
          exact ⟨layer, List.forall_mem_cons.mpr ⟨hx, queue⟩⟩
      | present => exact ih later only
      | stored l' => exact ih later (only_put blank only hx tried)

end Blank

end Layer

namespace Table

/-- All cells of the table have the property. -/
def Only (P : α → Prop) (t : Table w α) : Prop := ∀ c ∈ t.cells, P c

theorem only_iff {t : Table w α} : t.Only P ↔ ∀ flag, Layer.Only P (t.side flag) := by
  constructor
  · intro only flag c hc
    exact only c ((mem_cells_sides t flag).mpr (.inl hc))
  · intro sides c hc
    cases (mem_cells_sides t true).mp hc with
    | inl first => exact sides true c first
    | inr second => exact sides false c second

theorem only_withSide {t : Table w α} (flag : Bool) {l : Layer w α} (only : t.Only P) (hl : Layer.Only P l) :
    (t.withSide flag l).Only P := by
  intro c hc
  cases (mem_cells_sides _ flag).mp hc with
  | inl here => exact hl c (by simpa using here)
  | inr there => exact only_iff.mp only (!flag) c (by simpa using there)

section Blank

variable (blank : P H.zero)

include blank

theorem only_new (l1 l2 : Nat) : (new H l1 l2 : Table w α).Only P := by
  intro c hc
  rwa [mem_new l1 l2 hc]

theorem only_kickLoop (rand : Nat → Nat) (times : Nat) {flag : Bool} {t : Table w α} {draws : Nat} {ins : α}
    (only : t.Only P) (hx : P ins) :
    (kickLoop H rand times flag t draws ins).table.Only P ∧
      ∀ c ∈ (kickLoop H rand times flag t draws ins).left, P c := by
  induction times generalizing flag t draws ins with
  | zero => exact ⟨only, by simpa [kickLoop] using hx⟩
  | succ times ih =>
      have here := Layer.only_bucketAt blank (only_iff.mp only flag)
      have hit : ∀ (b : Bucket w α) r, (∀ c ∈ b.cells, P c) → P (b.victim H r) := by
        intro b r hb
        rw [Bucket.victim, List.getD_eq_getElem?_getD]
        cases found : b.cells[r % w]? with
        | none => exact blank
        | some c => exact hb c (List.mem_of_getElem? found)
      have swapped : (t.withSide flag ((t.side flag).set (Layer.pos (H.hash flag) (t.side flag) ins)
          ((Layer.bucketAt H (t.side flag) (Layer.pos (H.hash flag) (t.side flag) ins)).set
            (rand draws % w) ins))).Only P := by
        apply only_withSide flag only
        apply Layer.only_set (only_iff.mp only flag)
        intro c hc
        cases Bucket.mem_set hc with
        | inl old => exact here _ c old
        | inr new => exact new ▸ hx
      simp only [kickLoop]
      split
      · rename_i l tried
        refine ⟨?_, by simp⟩
        intro c hc
        have room := Layer.only_put blank (only_iff.mp swapped (!flag)) (hit _ _ (here _)) tried
        exact only_withSide (!flag) swapped room c hc
      · exact ⟨swapped, by simp⟩
      · exact ih swapped (hit _ _ (here _))

theorem only_insert (times : Nat) (rand : Nat → Nat) {t : Table w α} (draws : Nat) {x : α}
    (only : t.Only P) (hx : P x) :
    (t.insert H times rand draws x).table.Only P ∧ ∀ c ∈ (t.insert H times rand draws x).left, P c := by
  have sides := only_iff.mp only
  unfold insert
  split
  · rename_i l tried
    exact ⟨only_withSide true only (Layer.only_put blank (sides true) hx tried), by simp⟩
  · exact ⟨only, by simp⟩
  · split
    · rename_i l tried
      exact ⟨only_withSide false only (Layer.only_put blank (sides false) hx tried), by simp⟩
    · exact ⟨only, by simp⟩
    · exact only_kickLoop blank rand times only hx

theorem only_insertAll (times : Nat) (rand : Nat → Nat) {xs : List α} (hxs : ∀ x ∈ xs, P x)
    {t : Table w α} (draws : Nat) (only : t.Only P) :
    (insertAll H times rand xs t draws).table.Only P ∧
      ∀ c ∈ (insertAll H times rand xs t draws).left, P c := by
  induction xs generalizing t draws with
  | nil => exact ⟨only, by simp [insertAll]⟩
  | cons x xs ih =>
      obtain ⟨one, left⟩ := only_insert blank times rand draws only (hxs x List.mem_cons_self)
      obtain ⟨table, rest⟩ := ih (fun y hy => hxs y (List.mem_cons_of_mem x hy))
        (t.insert H times rand draws x).draws one
      refine ⟨table, fun c hc => ?_⟩
      cases List.mem_append.mp hc with
      | inl first => exact left c (Option.mem_toList.mp first)
      | inr later => exact rest c later

theorem only_merge (times : Nat) (rand : Nat → Nat) {c0 c1 c2 : Table w α} (draws : Nat)
    (h0 : c0.Only P) (h1 : c1.Only P) (h2 : c2.Only P) :
    (merge H times rand c0 c1 c2 draws).table.Only P ∧
      ∀ c ∈ (merge H times rand c0 c1 c2 draws).left, P c := by
  have rounds := fun flag k => Layer.only_rehash blank (H.hash flag)
    (Layer.only_zipItems blank (only_iff.mp h1 flag) (only_iff.mp h2 flag) k)
    (Layer.only_double blank (H.hash flag) (only_iff.mp h0 flag))
  refine only_insertAll blank times rand ?_ draws (only_iff.mpr ?_)
  · intro x hx
    cases List.mem_append.mp hx with
    | inl first => exact (rounds true _).2 x first
    | inr second => exact (rounds false _).2 x second
  · intro flag
    cases flag with
    | true => exact (rounds true _).1
    | false => exact (rounds false _).1

end Blank

end Table

end TwoLayer
