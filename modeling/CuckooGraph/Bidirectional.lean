import Mathlib.Data.List.Basic
import Mathlib.Logic.Relation
import Mathlib.Tactic

/-! # Search from both ends

Two searches take turns, one along the edges from a start, the other against them from a
goal. They stop when one of them comes to a node the other has visited, or when one has
nothing left to do. The two may see more than the edges, as long as they see these.
-/

namespace Bidirectional

variable {α : Type} [DecidableEq α]

/-- The new ones of some nodes are pushed. `none` if the other search has been met. -/
def expand (other : List α) : List α → List α → List α → Option (List α × List α)
  | [], reader, visited => some (reader, visited)
  | now :: nodes, reader, visited =>
      if now ∈ visited then expand other nodes reader visited
      else if now ∈ other then none
      else expand other nodes (reader ++ [now]) (now :: visited)

/-- Whether the searches meet; `none` if the fuel does not suffice. -/
def meet (succ pre : α → List α) : Nat → List α → List α → List α → List α → Option Bool
  | 0, _, _, _, _ => none
  | fuel + 1, now1 :: reader1, visited1, now2 :: reader2, visited2 =>
      match expand visited2 (succ now1) reader1 visited1 with
      | none => some true
      | some (reader1, visited1) =>
          match expand visited1 (pre now2) reader2 visited2 with
          | none => some true
          | some (reader2, visited2) => meet succ pre fuel reader1 visited1 reader2 visited2
  | _ + 1, _, _, _, _ => some false

/-- What one search sees. -/
abbrev Sees (next : α → List α) (u v : α) : Prop := v ∈ next u

/-- The state of one search. -/
structure Side (next : α → List α) (start : α) (reader visited : List α) : Prop where
  begins : start ∈ visited
  queued : reader ⊆ visited
  closed : ∀ u ∈ visited, u ∉ reader → next u ⊆ visited
  reached : ∀ u ∈ visited, Relation.ReflTransGen (Sees next) start u
  once : visited.Nodup

section Expand

variable {other nodes reader visited reader' visited' : List α}

theorem expand_some (done : expand other nodes reader visited = some (reader', visited')) :
    (∀ z, z ∈ visited' ↔ z ∈ visited ∨ z ∈ nodes) ∧ (∀ z, z ∈ reader' ↔ z ∈ reader ∨ z ∈ nodes ∧ z ∉ visited) ∧
      (∀ z ∈ nodes, z ∈ visited ∨ z ∉ other) ∧ (visited.Nodup → visited'.Nodup) ∧
      reader'.length + visited.length = reader.length + visited'.length := by
  induction nodes generalizing reader visited with
  | nil =>
      obtain ⟨rfl, rfl⟩ := Prod.mk.inj (Option.some.inj done)
      simp
  | cons now nodes ih =>
      rw [expand] at done
      split at done
      · rename_i old
        obtain ⟨seen, queue, apart, once, length⟩ := ih done
        refine ⟨fun z => ?_, fun z => ?_, fun z hz => ?_, once, length⟩
        · rw [seen, List.mem_cons]
          constructor
          · exact Or.imp_right .inr
          · rintro (here | rfl | there)
            · exact .inl here
            · exact .inl old
            · exact .inr there
        · rw [queue, List.mem_cons]
          constructor
          · exact Or.imp_right fun both => ⟨.inr both.1, both.2⟩
          · rintro (here | ⟨rfl | there, new⟩)
            · exact .inl here
            · exact absurd old new
            · exact .inr ⟨there, new⟩
        · rcases List.mem_cons.mp hz with rfl | hz
          · exact .inl old
          · exact apart z hz
      · rename_i new
        split at done
        · cases done
        · rename_i away
          obtain ⟨seen, queue, apart, once, length⟩ := ih done
          refine ⟨fun z => ?_, fun z => ?_, fun z hz => ?_, fun nodup => once (List.nodup_cons.mpr ⟨new, nodup⟩), ?_⟩
          · rw [seen, List.mem_cons, List.mem_cons]
            tauto
          · rw [queue, List.mem_append, List.mem_singleton, List.mem_cons, List.mem_cons]
            by_cases same : z = now
            · subst same
              tauto
            · tauto
          · rcases List.mem_cons.mp hz with rfl | hz
            · exact .inr away
            · rcases apart z hz with here | there
              · rcases List.mem_cons.mp here with rfl | here
                · exact .inr away
                · exact .inl here
              · exact .inr there
          · rw [List.length_append, List.length_singleton, List.length_cons] at length
            omega

theorem expand_none (met : expand other nodes reader visited = none) : ∃ z ∈ nodes, z ∈ other ∧ z ∉ visited := by
  induction nodes generalizing reader visited with
  | nil => cases met
  | cons now nodes ih =>
      rw [expand] at met
      split at met
      · obtain ⟨z, hz, there, new⟩ := ih met
        exact ⟨z, List.mem_cons_of_mem now hz, there, new⟩
      · rename_i new
        split at met
        · rename_i there
          exact ⟨now, List.mem_cons_self, there, new⟩
        · obtain ⟨z, hz, there, other⟩ := ih met
          exact ⟨z, List.mem_cons_of_mem now hz, there, fun here => other (List.mem_cons_of_mem now here)⟩

end Expand

namespace Side

variable {next : α → List α} {start now : α} {reader visited other reader' visited' : List α}

omit [DecidableEq α] in
theorem initial (next : α → List α) (start : α) : Side next start [start] [start] where
  begins := List.mem_cons_self
  queued := List.Subset.refl _
  closed := fun u hu away => absurd hu away
  reached := fun u hu => by rw [List.mem_singleton.mp hu]
  once := List.nodup_singleton start

/-- One turn of a search. -/
theorem turn (side : Side next start (now :: reader) visited)
    (done : expand other (next now) reader visited = some (reader', visited')) :
    Side next start reader' visited' ∧ visited ⊆ visited' ∧ (∀ z ∈ visited', z ∈ visited ∨ z ∉ other) ∧
      (∀ z ∈ visited, z ∉ reader → z ∉ reader') ∧ reader'.length + visited.length = reader.length + visited'.length := by
  obtain ⟨seen, queue, apart, once, length⟩ := expand_some done
  have kept : visited ⊆ visited' := fun z hz => (seen z).mpr (.inl hz)
  have mine : now ∈ visited := side.queued List.mem_cons_self
  refine ⟨⟨kept side.begins, fun z hz => ?_, fun u hu away => ?_, fun u hu => ?_, once side.once⟩, kept, fun z hz => ?_,
    fun z hz away here => ?_, length⟩
  · rcases (queue z).mp hz with here | ⟨here, -⟩
    · exact kept (side.queued (List.mem_cons_of_mem now here))
    · exact (seen z).mpr (.inr here)
  · rw [queue, not_or, not_and_not_right] at away
    obtain ⟨waiting, old⟩ := away
    by_cases same : u = now
    · subst same
      exact fun z hz => (seen z).mpr (.inr hz)
    · have before : u ∈ visited := ((seen u).mp hu).elim id old
      have out : u ∉ now :: reader := fun here => (List.mem_cons.mp here).elim same waiting
      exact fun z hz => kept (side.closed u before out hz)
  · rcases (seen u).mp hu with before | new
    · exact side.reached u before
    · exact (side.reached now mine).tail new
  · rcases (seen z).mp hz with before | new
    · exact .inl before
    · exact apart z new
  · rcases (queue z).mp here with waiting | ⟨-, new⟩
    · exact away waiting
    · exact new hz

end Side

/-- Both searches. They have no node in common but the start, if it is the goal. -/
structure Both (succ pre : α → List α) (x y : α) (reader1 visited1 reader2 visited2 : List α) : Prop where
  one : Side succ x reader1 visited1
  two : Side pre y reader2 visited2
  apart : ∀ z ∈ visited1, z ∈ visited2 → z = x ∧ z = y

/-- A node both searches get to, which is not all there was in the beginning. -/
def Met (succ pre : α → List α) (x y : α) : Prop :=
  ∃ z, Relation.ReflTransGen (Sees succ) x z ∧ Relation.ReflTransGen (Sees pre) y z ∧ ¬ (z = x ∧ z = y)

/-- One search has nothing left to do, and both have begun. -/
def Ended (succ pre : α → List α) (x y : α) : Prop :=
  ∃ reader1 visited1 reader2 visited2, Both succ pre x y reader1 visited1 reader2 visited2 ∧ x ∉ reader1 ∧ y ∉ reader2 ∧
    (reader1 = [] ∨ reader2 = [])

section Run

variable {succ pre : α → List α} {x y now1 now2 : α} {reader1 visited1 reader2 visited2 : List α} {fuel : Nat}

/-- One pass of the loop. -/
theorem Both.step (both : Both succ pre x y (now1 :: reader1) visited1 (now2 :: reader2) visited2) (out1 : x ∉ reader1)
    (out2 : y ∉ reader2) (fuel : Nat) :
    meet succ pre (fuel + 1) (now1 :: reader1) visited1 (now2 :: reader2) visited2 = some true ∧ Met succ pre x y ∨
      ∃ reader1' visited1' reader2' visited2', Both succ pre x y reader1' visited1' reader2' visited2' ∧
        x ∉ reader1' ∧ y ∉ reader2' ∧ reader1'.length + visited1.length = reader1.length + visited1'.length ∧
        meet succ pre (fuel + 1) (now1 :: reader1) visited1 (now2 :: reader2) visited2 =
          meet succ pre fuel reader1' visited1' reader2' visited2' := by
  have first : now1 ∈ visited1 := both.one.queued List.mem_cons_self
  have last : now2 ∈ visited2 := both.two.queued List.mem_cons_self
  rw [meet]
  cases turn1 : expand visited2 (succ now1) reader1 visited1 with
  | none =>
      obtain ⟨z, hz, there, new⟩ := expand_none turn1
      exact .inl ⟨rfl, z, (both.one.reached now1 first).tail hz, both.two.reached z there,
        fun same => new (same.1 ▸ both.one.begins)⟩
  | some s1 =>
      obtain ⟨side1, kept1, apart1, stay1, length1⟩ := both.one.turn turn1
      simp only
      cases turn2 : expand s1.2 (pre now2) reader2 visited2 with
      | none =>
          obtain ⟨z, hz, there, new⟩ := expand_none turn2
          exact .inl ⟨rfl, z, side1.reached z there, (both.two.reached now2 last).tail hz,
            fun same => new (same.2 ▸ both.two.begins)⟩
      | some s2 =>
          obtain ⟨side2, -, apart2, stay2, -⟩ := both.two.turn turn2
          refine .inr ⟨s1.1, s1.2, s2.1, s2.2, ⟨side1, side2, fun z h1 h2 => ?_⟩, stay1 x both.one.begins out1,
            stay2 y both.two.begins out2, length1, rfl⟩
          have mine : z ∈ visited2 := (apart2 z h2).resolve_right fun away => away h1
          have yours : z ∈ visited1 := (apart1 z h1).resolve_right fun away => away mine
          exact both.apart z yours mine

theorem Both.run (both : Both succ pre x y reader1 visited1 reader2 visited2) (out1 : x ∉ reader1) (out2 : y ∉ reader2)
    {answer : Bool} (done : meet succ pre fuel reader1 visited1 reader2 visited2 = some answer) :
    if answer then Met succ pre x y else Ended succ pre x y := by
  induction fuel generalizing reader1 visited1 reader2 visited2 with
  | zero => cases done
  | succ fuel ih =>
      cases reader1 with
      | nil =>
          obtain rfl : false = answer := Option.some.inj done
          exact ⟨[], visited1, reader2, visited2, both, out1, out2, .inl rfl⟩
      | cons now1 reader1 =>
          cases reader2 with
          | nil =>
              obtain rfl : false = answer := Option.some.inj done
              exact ⟨now1 :: reader1, visited1, [], visited2, both, out1, out2, .inr rfl⟩
          | cons now2 reader2 =>
              rcases both.step (fun here => out1 (List.mem_cons_of_mem now1 here))
                (fun here => out2 (List.mem_cons_of_mem now2 here)) fuel with ⟨found, met⟩ |
                  ⟨r1, v1, r2, v2, both', out1', out2', -, next⟩
              · obtain rfl := Option.some.inj (found.symm.trans done)
                exact met
              · exact ih both' out1' out2' (next.symm.trans done)

/-- The loop ends, as there are only so many nodes which can be pushed. -/
theorem Both.ends {all : List α} (finite : ∀ z, Relation.ReflTransGen (Sees succ) x z → z ∈ all)
    (both : Both succ pre x y reader1 visited1 reader2 visited2) (out1 : x ∉ reader1) (out2 : y ∉ reader2)
    (enough : all.length + reader1.length < fuel + visited1.length) :
    meet succ pre fuel reader1 visited1 reader2 visited2 ≠ none := by
  induction fuel generalizing reader1 visited1 reader2 visited2 with
  | zero =>
      have few := both.one.once.length_le_of_subset fun z hz => finite z (both.one.reached z hz)
      omega
  | succ fuel ih =>
      cases reader1 with
      | nil => exact Option.some_ne_none _
      | cons now1 reader1 =>
          cases reader2 with
          | nil => exact Option.some_ne_none _
          | cons now2 reader2 =>
              rw [List.length_cons] at enough
              rcases both.step (fun here => out1 (List.mem_cons_of_mem now1 here))
                (fun here => out2 (List.mem_cons_of_mem now2 here)) fuel with ⟨found, -⟩ |
                  ⟨r1, v1, r2, v2, both', out1', out2', length, next⟩
              · rw [found]
                exact Option.some_ne_none _
              · rw [next]
                exact ih both' out1' out2' (by omega)

end Run

section Search

variable {succ pre : α → List α} {x y : α} {E : α → α → Prop}

/-- The search comes to an answer, which says that the searches have met or that one has ended. -/
theorem meet_spec {all : List α} (finite : ∀ z, Relation.ReflTransGen (Sees succ) x z → z ∈ all) {fuel : Nat}
    (enough : all.length < fuel) : ∃ answer, meet succ pre fuel [x] [x] [y] [y] = some answer ∧
      if answer then Met succ pre x y else Ended succ pre x y := by
  have both : Both succ pre x y [x] [x] [y] [y] := by
    refine ⟨Side.initial succ x, Side.initial pre y, fun z h1 h2 => ?_⟩
    exact ⟨List.mem_singleton.mp h1, List.mem_singleton.mp h2⟩
  cases fuel with
  | zero => omega
  | succ fuel =>
      rcases both.step List.not_mem_nil List.not_mem_nil fuel with ⟨found, met⟩ |
        ⟨r1, v1, r2, v2, both', out1, out2, length, next⟩
      · exact ⟨true, found, met⟩
      · rw [List.length_singleton, List.length_nil, Nat.zero_add] at length
        have few : all.length + r1.length < fuel + v1.length := by omega
        have ended := both'.ends finite out1 out2 few
        obtain ⟨answer, done⟩ := Option.ne_none_iff_exists'.mp ended
        exact ⟨answer, next.trans done, both'.run out1 out2 done⟩

omit [DecidableEq α] in
theorem path_refl {u v : α} (path : Relation.ReflTransGen E u v) :
    Relation.ReflTransGen (fun u v => E u v ∧ u ≠ v) u v := by
  induction path with
  | refl => exact .refl
  | @tail v w _ edge ih =>
      by_cases same : v = w
      · exact same ▸ ih
      · exact ih.tail ⟨edge, same⟩

omit [DecidableEq α] in
/-- What has met is joined by a path, if nothing but edges was seen. -/
theorem Met.path (met : Met succ pre x y) (only1 : ∀ u, Relation.ReflTransGen E x u → ∀ v ∈ succ u, E u v)
    (only2 : ∀ v, Relation.ReflTransGen E v y → ∀ u ∈ pre v, E u v) :
    Relation.TransGen (fun u v => E u v ∧ u ≠ v) x y := by
  obtain ⟨z, ahead, back, other⟩ := met
  have first : Relation.ReflTransGen E x z := by
    clear back other
    induction ahead with
    | refl => exact .refl
    | tail _ seen ih => exact ih.tail (only1 _ ih _ seen)
  have second : Relation.ReflTransGen E z y := by
    clear ahead first other
    induction back with
    | refl => exact .refl
    | tail _ seen ih => exact .head (only2 _ ih _ seen) ih
  rcases Relation.reflTransGen_iff_eq_or_transGen.mp (path_refl first) with same | some1
  · rcases Relation.reflTransGen_iff_eq_or_transGen.mp (path_refl second) with same' | some2
    · exact absurd ⟨same, same'.symm⟩ other
    · exact same ▸ some2
  · exact some1.trans_left (path_refl second)

omit [DecidableEq α] in
/-- Where a search has ended, it has visited all the path. -/
theorem Side.all {next : α → List α} {start : α} {visited : List α} (side : Side next start [] visited)
    {R : α → α → Prop} (seen : ∀ u v, R u v → v ∈ next u) {z : α} (path : Relation.ReflTransGen R start z) : z ∈ visited := by
  induction path with
  | refl => exact side.begins
  | tail _ edge ih => exact side.closed _ ih List.not_mem_nil (seen _ _ edge)

omit [DecidableEq α] in
/-- When a search has ended without a meeting, there is no path. -/
theorem Ended.no_path (ended : Ended succ pre x y) (all1 : ∀ u v, E u v → v ∈ succ u) (all2 : ∀ u v, E u v → u ∈ pre v) :
    ¬ Relation.TransGen (fun u v => E u v ∧ u ≠ v) x y := by
  intro path
  obtain ⟨reader1, visited1, reader2, visited2, both, out1, out2, rfl | rfl⟩ := ended
  · obtain ⟨z, ahead, edge, other⟩ := Relation.TransGen.tail'_iff.mp path
    have before : z ∈ visited1 := both.one.all (fun u v edge => all1 u v edge.1) ahead
    have goal : y ∈ visited1 := both.one.closed z before List.not_mem_nil (all1 z y edge)
    have behind : z ∈ visited2 := both.two.closed y both.two.begins out2 (all2 z y edge)
    exact other (both.apart z before behind).2
  · obtain ⟨z, ⟨edge, other⟩, behind⟩ := Relation.TransGen.head'_iff.mp path
    have after : z ∈ visited2 := by
      have back : Relation.ReflTransGen (Function.swap fun u v => E u v ∧ u ≠ v) y z := behind.swap
      exact both.two.all (fun u v edge => all2 v u edge.1) back
    have ahead : z ∈ visited1 := both.one.closed x both.one.begins out1 (all1 x z edge)
    exact other (both.apart z ahead after).1.symm

/-- The answer of the search: it is right about every path, and about there being none as far
    as the searches see nothing but edges. -/
theorem meet_path {all : List α} (finite : ∀ z, Relation.ReflTransGen (Sees succ) x z → z ∈ all) {fuel : Nat}
    (enough : all.length < fuel) (all1 : ∀ u v, E u v → v ∈ succ u) (all2 : ∀ u v, E u v → u ∈ pre v) :
    ∃ answer, meet succ pre fuel [x] [x] [y] [y] = some answer ∧
      (Relation.TransGen (fun u v => E u v ∧ u ≠ v) x y → answer = true) ∧
      ((∀ u, Relation.ReflTransGen E x u → ∀ v ∈ succ u, E u v) → (∀ v, Relation.ReflTransGen E v y → ∀ u ∈ pre v, E u v) →
        answer = true → Relation.TransGen (fun u v => E u v ∧ u ≠ v) x y) := by
  obtain ⟨answer, done, spec⟩ := @meet_spec α _ succ pre x y all finite fuel enough
  refine ⟨answer, done, fun path => ?_, fun only1 only2 found => ?_⟩
  · cases answer with
    | true => rfl
    | false => exact absurd path (Ended.no_path spec all1 all2)
  · subst found
    exact Met.path spec only1 only2

end Search

end Bidirectional
