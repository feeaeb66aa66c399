import CuckooGraph.Mergehash1.Tables

/-! # The steps of `mergehash1`

An insertion adds its key to what the tables and the blacklist hold together,
however keys are moved between these; a deletion takes its key away.
-/

namespace CuckooGraph

open TwoLayer

namespace Mergehash1

variable {E : Env} {h : Mergehash1} {e : Key}

/-- The keys in the tables and in the blacklist. -/
def held (E : Env) (h : Mergehash1) : Multiset Key := h.link.stored (h.cells E) + ↑h.blacklist

/-- All tables are in order, and no key is held twice. -/
structure Good (E : Env) (h : Mergehash1) : Prop where
  fine : ∀ t ∈ h.link.toList, KeyTable.Fine (h.cells E) t
  nodup : (held E h).Nodup
  known : 0 ∉ held E h
  fault : h.fault = false

theorem good_new (E : Env) (l1 l2 : Nat) (s1 s2 : Int) : Good E (new l1 l2 s1 s2) ∧ held E (new l1 l2 s1 s2) = 0 := by
  have vacant : held E (new l1 l2 s1 s2) = 0 := rfl
  refine ⟨⟨by simp [new, Three.null, Three.toList], ?_, ?_, rfl⟩, vacant⟩
  · rw [vacant]
    exact Multiset.nodup_zero
  · rw [vacant]
    exact Multiset.notMem_zero 0

namespace Good

variable (good : Good E h)

include good

theorem ready {t : KeyTable} (ht : t ∈ h.link.toList) : t.Ready := (good.fine t ht).shape.ready

theorem listed {x : Key} (hx : x ∈ h.blacklist) : x ≠ 0 := by
  rintro rfl
  exact good.known (Multiset.mem_add.mpr (.inr hx))

theorem findFault (x : Key) : KeyTable.findFault (h.cells E) x h.link.toList = false :=
  KeyTable.findFault_ready (fun _ ht => good.ready ht) x

/-- Another table and another blacklist, with some keys. -/
theorem exchange {i : Nat} (inside : i < 3) {s : Option KeyTable} {bl : List Key} {d : Nat} {f : Bool}
    {keys : Multiset Key} (fine : ∀ t, s = some t → KeyTable.Fine (h.cells E) t) (fault : f = false)
    (same : held E h + (s.elim 0 (Table.stored (h.cells E)) + ↑bl) =
      keys + ((h.link.get i).elim 0 (Table.stored (h.cells E)) + ↑h.blacklist))
    (nodup : keys.Nodup) (known : 0 ∉ keys) :
    Good E { h with link := h.link.set i s, blacklist := bl, rands := d, fault := f } ∧
      held E { h with link := h.link.set i s, blacklist := bl, rands := d, fault := f } = keys := by
  have total : held E { h with link := h.link.set i s, blacklist := bl, rands := d, fault := f } = keys := by
    apply add_right_cancel (b := (h.link.get i).elim 0 (Table.stored (h.cells E)) + ↑h.blacklist)
    rw [← same]
    have exchanged := Three.stored_exchange (H := h.cells E) (t := h.link) inside s
    calc (h.link.set i s).stored (h.cells E) + ↑bl +
          ((h.link.get i).elim 0 (Table.stored (h.cells E)) + ↑h.blacklist) =
        ((h.link.set i s).stored (h.cells E) + (h.link.get i).elim 0 (Table.stored (h.cells E))) +
          (↑bl + ↑h.blacklist) := by ac_rfl
      _ = _ := by
        rw [exchanged, held]
        ac_rfl
  refine ⟨⟨fun t ht => ?_, total ▸ nodup, total ▸ known, fault⟩, total⟩
  rcases Three.mem_set_option ht with before | now
  · exact good.fine t before
  · exact fine t now

/-- No key is both in a table and in the blacklist, or in two tables. -/
theorem table_nodup {i : Nat} {t : KeyTable} (found : h.link.get i = some t) :
    (t.stored (h.cells E) + ↑h.blacklist).Nodup := by
  refine Multiset.nodup_of_le ?_ good.nodup
  exact Multiset.add_le_add_right (Three.stored_le (Three.mem_toList.mpr ⟨i, found⟩))

/-- A key is inserted into a table. -/
theorem insertAt {i : Nat} {t : KeyTable} (found : h.link.get i = some t) (known : e ≠ 0) (new : e ∉ held E h) :
    Good E (insertAt E h i t e) ∧ held E (Mergehash1.insertAt E h i t e) = e ::ₘ held E h := by
  have fine := good.fine t (Three.mem_toList.mpr ⟨i, found⟩)
  have mine : t.stored (h.cells E) ≤ held E h :=
    (Three.stored_le (Three.mem_toList.mpr ⟨i, found⟩)).trans (Multiset.le_add_right _ _)
  have nodup : (e ::ₘ t.stored (h.cells E)).Nodup :=
    Multiset.nodup_cons.mpr ⟨fun here => new (Multiset.mem_of_le mine here), Multiset.nodup_of_le mine good.nodup⟩
  obtain ⟨fine', stored⟩ := KeyTable.fine_insert fine E.rand known nodup h.rands
  refine good.exchange (Three.get_lt found) (fun t' same => ?_) ?_ ?_ (Multiset.nodup_cons.mpr ⟨new, good.nodup⟩)
    fun zero => (Multiset.mem_cons.mp zero).elim (fun same => known same.symm) good.known
  · cases same
    exact fine'
  · rw [good.fault, KeyTable.insertFault_ready fine.shape.ready]
    rfl
  · rw [found, Option.elim_some, Option.elim_some, ← Multiset.coe_add, Multiset.cons_add, ← Multiset.add_cons,
      ← Multiset.cons_add]
    refine congrArg _ (Eq.trans ?_ (congrArg (· + _) stored))
    ac_rfl

/-- A new table, or one whose keys are those of the table in its place, takes the
    blacklist and then the key. -/
theorem drainInto {i : Nat} (inside : i < 3) {t : KeyTable} (fine : KeyTable.Fine (h.cells E) t)
    (same : t.stored (h.cells E) = (h.link.get i).elim 0 (Table.stored (h.cells E))) (known : e ≠ 0)
    (new : e ∉ held E h) :
    Good E (drainInto E h i t e) ∧ held E (Mergehash1.drainInto E h i t e) = e ::ₘ held E h := by
  have listed : ∀ x ∈ h.blacklist, x ≠ 0 := fun x hx => good.listed hx
  have nodup : (t.stored (h.cells E) + ↑h.blacklist).Nodup := by
    rw [same]
    cases found : h.link.get i with
    | none =>
        rw [Option.elim_none, zero_add]
        exact Multiset.nodup_of_le (Multiset.le_add_left _ _) good.nodup
    | some t' => exact good.table_nodup found
  obtain ⟨fine', stored⟩ := KeyTable.fine_insertAll fine E.rand listed nodup h.rands
  have drained := good.exchange (d := (Table.insertAll (h.cells E) kicktimes E.rand h.blacklist t h.rands).draws)
    (f := h.fault || KeyTable.insertAllFault (h.cells E) E.rand h.blacklist t h.rands)
    inside (fun t' here => (Option.some.inj here) ▸ fine')
    (by rw [good.fault, show KeyTable.insertAllFault (h.cells E) E.rand h.blacklist t h.rands = false from
      KeyTable.insertAllFault_ready fine.shape.ready E.rand listed h.rands]; rfl)
    (congrArg (held E h + ·) (stored.trans (congrArg (· + _) same))) good.nodup good.known
  have step := drained.1.insertAt (Three.get_set inside _) known (drained.2 ▸ new)
  rw [drained.2] at step
  simpa only [Mergehash1.drainInto, Mergehash1.insertAt, Three.set_set, Mergehash1.cells] using step

end Good

section Choice

variable {link : Three KeyTable}

/-- A pass of the loop of `loads`. -/
def Loads.pass (link : Three KeyTable) (s : Loads) (i : Nat) : Loads :=
  match link.get i with
  | some t =>
      let sum := (t.len1 + t.len2) * bup
      if t.num * s.tr.2 < s.tr.1 * sum then { s with tr := (t.num, sum), aim := i } else s
  | none => if s.tnull.isNone then { s with tnull := some i } else s

theorem loads_eq (link : Three KeyTable) : loads link = [0, 1, 2].foldl (Loads.pass link) ⟨(2, 1), 0, none⟩ := rfl

/-- What is known after the links `xs`: the table with the least load exists if there is
    room in it, and `tnull` is null, and there is none only if all tables exist. -/
structure Loads.Seen (link : Three KeyTable) (xs : List Nat) (s : Loads) : Prop where
  room : 10 * s.tr.1 < 9 * (s.tr.2 : Int) → ∃ t, link.get s.aim = some t
  null : ∀ i, s.tnull = some i → i < 3 ∧ link.get i = none
  all : s.tnull = none → ∀ i ∈ xs, ∃ t, link.get i = some t

theorem Loads.Seen.pass {s : Loads} {xs : List Nat} {i : Nat} (seen : s.Seen link xs) (inside : i < 3) :
    (s.pass link i).Seen link (xs ++ [i]) := by
  cases here : link.get i with
  | some t =>
      have all : s.tnull = none → ∀ j ∈ xs ++ [i], ∃ t, link.get j = some t := by
        intro none j hj
        cases List.mem_append.mp hj with
        | inl before => exact seen.all none j before
        | inr last => exact ⟨t, List.mem_singleton.mp last ▸ here⟩
      simp only [Loads.pass, here]
      split
      · exact ⟨fun _ => ⟨t, here⟩, seen.null, all⟩
      · exact ⟨seen.room, seen.null, all⟩
  | none =>
      simp only [Loads.pass, here]
      split
      · refine ⟨seen.room, fun j same => ?_, fun none => by cases none⟩
        cases same
        exact ⟨inside, here⟩
      · rename_i before
        exact ⟨seen.room, seen.null, fun none => absurd (by rw [none]; rfl) before⟩

theorem Loads.seen {xs : List Nat} (inside : ∀ i ∈ xs, i < 3) :
    (xs.foldl (Loads.pass link) ⟨(2, 1), 0, none⟩).Seen link xs := by
  induction xs using List.reverseRecOn with
  | nil => exact ⟨by simp, by simp, by simp⟩
  | append_singleton xs i ih =>
      have before := ih fun j hj => inside j (List.mem_append_left _ hj)
      rw [List.foldl_append]
      exact before.pass (inside i (by simp))

theorem loads_spec (link : Three KeyTable) :
    (10 * (loads link).tr.1 < 9 * ((loads link).tr.2 : Int) → ∃ t, link.get (loads link).aim = some t) ∧
      (∀ i, (loads link).tnull = some i → i < 3 ∧ link.get i = none) ∧
      ((loads link).tnull = none → ∀ i < 3, ∃ t, link.get i = some t) := by
  have seen : (loads link).Seen link [0, 1, 2] := by
    rw [loads_eq]
    exact Loads.seen (by decide)
  refine ⟨seen.room, seen.null, fun none i inside => seen.all none i ?_⟩
  interval_cases i <;> decide

theorem smallest_lt (link : Three KeyTable) : smallest link < 3 := by
  unfold smallest
  simp only [List.foldl_cons, List.foldl_nil]
  split <;> split <;> simp

end Choice

/-- The link in which an insertion makes a new table. -/
def makes (E : Env) (h : Mergehash1) (e : Key) : Option Nat :=
  if h.query E e ∨ 10 * (loads h.link).tr.1 < 9 * ((loads h.link).tr.2 : Int) then none else (loads h.link).tnull

namespace Good

variable (good : Good E h) (known : e ≠ 0)

include good known

theorem query_iff : h.query E e = true ↔ e ∈ held E h := by
  rw [query, Bool.or_eq_true, List.any_eq_true, held, Multiset.mem_add, Three.mem_stored]
  refine or_congr (exists_congr fun t => and_congr_right fun ht => ?_) (by simp)
  exact KeyTable.query_iff (good.ready ht) (good.fine t ht).placed known

/-- One insertion. -/
theorem insert {j : Nat} (sized : h.ll1 = 2 ^ (j + 1) ∧ h.ll2 = 2 ^ j) (fits : ∀ i, makes E h e = some i → i ≤ j) :
    Good E (h.insert E e) ∧ held E (h.insert E e) = if e ∈ held E h then held E h else e ::ₘ held E h := by
  have asked := good.query_iff known
  have same : { h with fault := h.fault || KeyTable.findFault (h.cells E) e h.link.toList } = h := by
    rw [good.findFault, Bool.or_false]
  rw [Mergehash1.insert, same]
  by_cases present : h.query E e = true
  · simp only [present, if_true]
    rw [if_pos (asked.mp present)]
    exact ⟨good, rfl⟩
  · have new : e ∉ held E h := fun here => present (asked.mpr here)
    obtain ⟨room, null, all⟩ := loads_spec h.link
    rw [if_neg new]
    simp only [present, Bool.false_eq_true, if_false]
    split
    · rename_i loaded
      obtain ⟨t, found⟩ := room loaded
      simp only [found]
      exact good.insertAt found known new
    · rename_i loaded
      cases first : (loads h.link).tnull with
      | some i =>
          obtain ⟨inside, missing⟩ := null i first
          have le : i ≤ j := fits i (by simp [makes, present, loaded, first])
          have halved : ∀ n, i ≤ n → 2 ^ n / 2 ^ i = 2 ^ (n - i) := fun n h => Nat.pow_div h (by decide)
          have fine : KeyTable.Fine (h.cells E) (h.freshTable E i) := by
            refine KeyTable.fine_new (k := j - i) ?_ ?_
            · rw [sized.1, halved _ (by omega)]
              congr 1
              omega
            · rw [sized.2, halved _ le]
          refine good.drainInto inside fine ?_ known new
          rw [missing, Option.elim_none]
          exact Table.stored_new (keyCells_lawful E h.s1 h.s2) _ _
      | none =>
          obtain ⟨t, found⟩ := all first (smallest h.link) (smallest_lt h.link)
          simp only [found]
          obtain ⟨fine, stored⟩ := KeyTable.fine_expand (good.fine t (Three.mem_toList.mpr ⟨_, found⟩))
          refine good.drainInto (Three.get_lt found) fine ?_ known new
          rw [found, Option.elim_some]
          exact stored

omit known in
/-- The table that has the key, if there is one. -/
theorem findSome_cases (e : Key) :
    let r := [0, 1, 2].findSome? fun i =>
      (h.link.get i).bind fun t => (KeyTable.del (h.cells E) t e).map (i, ·)
    (∀ i t', r = some (i, t') → i < 3 ∧ ∃ t, h.link.get i = some t ∧ KeyTable.del (h.cells E) t e = some t') ∧
      (r = none → e ∉ h.link.stored (h.cells E)) := by
  refine ⟨fun i t' found => ?_, fun missing here => ?_⟩
  · obtain ⟨i', -, here⟩ := List.exists_of_findSome?_eq_some found
    obtain ⟨t, linked, done⟩ := Option.bind_eq_some_iff.mp here
    obtain ⟨t'', done, same⟩ := Option.map_eq_some_iff.mp done
    cases same
    exact ⟨Three.get_lt linked, t, linked, done⟩
  · obtain ⟨t, ht, member⟩ := Three.mem_stored.mp here
    obtain ⟨i, linked⟩ := Three.mem_toList.mp ht
    have none := List.findSome?_eq_none_iff.mp missing i (by
      have inside := Three.get_lt linked
      interval_cases i <;> decide)
    rw [linked, Option.bind_some, Option.map_eq_none_iff] at none
    exact KeyTable.del_none (good.fine t ht).placed none member

section Drop

variable {i : Nat} {t t' : KeyTable} (linked : h.link.get i = some t)
  (stored : t'.stored (h.cells E) + {e} = t.stored (h.cells E))

include linked stored

omit good known in
theorem held_of_drop : e ∈ held E h := by
  refine Multiset.mem_add.mpr (.inl (Three.mem_stored.mpr ⟨t, Three.mem_toList.mpr ⟨i, linked⟩, ?_⟩))
  rw [← stored]
  exact Multiset.mem_add.mpr (.inr (Multiset.mem_singleton_self e))

omit known in
/-- A table has lost the key, and what it has left is laid out in some way. -/
theorem drop {s : Option KeyTable} {bl : List Key} {d : Nat} {f : Bool}
    (fine : ∀ t, s = some t → KeyTable.Fine (h.cells E) t) (fault : f = false)
    (left : s.elim 0 (Table.stored (h.cells E)) + ↑bl = t'.stored (h.cells E) + ↑h.blacklist) :
    Good E { h with link := h.link.set i s, blacklist := bl, rands := d, fault := f } ∧
      held E { h with link := h.link.set i s, blacklist := bl, rands := d, fault := f } = (held E h).erase e := by
  refine good.exchange (Three.get_lt linked) fine fault ?_ (good.nodup.erase e)
    fun zero => good.known (Multiset.mem_of_mem_erase zero)
  rw [left, linked, Option.elim_some, ← stored]
  conv_lhs => rw [← Multiset.cons_erase (held_of_drop linked stored), ← Multiset.singleton_add]
  ac_rfl

omit known in
/-- What is left is compressed into a table of half the size, or blacklisted. -/
theorem dropCompress (fine : KeyTable.Fine (h.cells E) t') (large : minc2 ≤ t'.len2) :
    Good E (compressAt E h i t') ∧ held E (compressAt E h i t') = (held E h).erase e := by
  have nodup : (t'.stored (h.cells E)).Nodup := by
    refine Multiset.nodup_of_le ?_ (good.table_nodup linked)
    rw [← stored]
    exact (Multiset.le_add_right _ _).trans (Multiset.le_add_right _ _)
  obtain ⟨fine', halved⟩ := KeyTable.fine_compress fine E.rand large nodup h.rands
  refine good.drop linked stored (fun t'' same => Option.some.inj same ▸ fine') ?_ ?_
  · rw [good.fault, Bool.false_or]
    exact KeyTable.compressFault fine E.rand large h.rands
  · rw [Option.elim_some, ← Multiset.coe_add, add_comm (↑h.blacklist : Multiset Key), ← add_assoc]
    exact congrArg (· + (↑h.blacklist : Multiset Key)) halved

end Drop

omit known in
/-- The key is in no table. -/
theorem delListed (absent : e ∉ h.link.stored (h.cells E)) :
    let r : Mergehash1 × Int :=
      if h.blacklist.any (· == e) then ({ h with blacklist := h.blacklist.erase e }, 1) else (h, 0)
    Good E r.1 ∧ held E r.1 = (held E h).erase e ∧ r.2 = if e ∈ held E h then 1 else 0 := by
  have listed : e ∈ held E h ↔ e ∈ h.blacklist := by simp [held, absent]
  dsimp only
  split
  · rename_i inside
    have inside : e ∈ h.blacklist := by simpa using inside
    have total : held E { h with blacklist := h.blacklist.erase e } = (held E h).erase e := by
      rw [held, held, Multiset.erase_add_right_neg _ absent, Multiset.coe_erase]
      rfl
    refine ⟨⟨good.fine, ?_, ?_, good.fault⟩, total, by rw [if_pos (listed.mpr inside)]⟩
    · rw [total]
      exact good.nodup.erase e
    · rw [total]
      exact fun zero => good.known (Multiset.mem_of_mem_erase zero)
  · rename_i outside
    have gone : e ∉ held E h := fun here => outside (by simpa using listed.mp here)
    exact ⟨good, (Multiset.erase_of_notMem gone).symm, by rw [if_neg gone]⟩

/-- One deletion. -/
theorem del : Good E (h.del E e).1 ∧ held E (h.del E e).1 = (held E h).erase e ∧
    (h.del E e).2 = if e ∈ held E h then 1 else 0 := by
  have same : { h with fault := h.fault || KeyTable.findFault (h.cells E) e h.link.toList } = h := by
    rw [good.findFault, Bool.or_false]
  obtain ⟨found, missing⟩ := good.findSome_cases e
  rw [Mergehash1.del, same]
  cases first : [0, 1, 2].findSome? fun i =>
      (h.link.get i).bind fun t => (KeyTable.del (h.cells E) t e).map (i, ·) with
  | some x =>
      obtain ⟨i, t'⟩ := x
      obtain ⟨-, t, linked, done⟩ := found i t' first
      obtain ⟨fine, stored⟩ := KeyTable.fine_lost (good.fine t (Three.mem_toList.mpr ⟨i, linked⟩)) known done
      have stored : t'.stored (h.cells E) + {e} = t.stored (h.cells E) := stored
      simp only [if_pos (held_of_drop linked stored)]
      split
      · rename_i zeroNum
        have vacant : t'.stored (h.cells E) = 0 := by
          have counted := fine.counted
          rw [Table.Counted, zeroNum] at counted
          exact Multiset.card_eq_zero.mp (by exact_mod_cast counted.symm)
        obtain ⟨good', held'⟩ := good.drop linked stored (s := none) (by simp) good.fault
          (by rw [Option.elim_none, vacant])
        exact ⟨good', held', rfl⟩
      · split
        · rename_i large
          obtain ⟨good', held'⟩ := good.dropCompress linked stored fine large.1
          exact ⟨good', held', rfl⟩
        · obtain ⟨good', held'⟩ := good.drop linked stored (s := some t')
            (fun t'' same => Option.some.inj same ▸ fine) good.fault rfl
          exact ⟨good', held', rfl⟩
  | none => exact good.delListed (missing first)

end Good

end Mergehash1

end CuckooGraph
