import CuckooGraph.Unweighted.Run

/-! # One home for each source

Unless a deletion fails at the level of the links, a source has one `bSlot`, it
is where the hashes say, and its S-CHTs are its own.
-/

namespace CuckooGraph

open TwoLayer Holemerge

/-- What is said of the home of a source. -/
structure Housing (E : Env) (m : Memory Key) (h : Holemerge Key) : Prop where
  one : ∀ src, (∃ x, x ∈ entries E m h src) ∨ (∃ d ∈ m.sblacklist, d.src = src) →
    ((h.slots E).filter fun s => s.src = src).card = 1
  most : ∀ src, ((h.slots E).filter fun s => s.src = src).card ≤ 1
  bucket : ∀ t ∈ h.link.toList, ∀ flag i b, (t.side flag)[i]? = some b → ∀ s ∈ b.cells,
    s.isSlotEmpty = false → i = E.mmhash s.src (h.seed flag) % (t.side flag).length
  apart : ((h.slots E).bind fun s => (s.addrs : Multiset Addr)).Nodup
  found : ∀ src x, x ∈ entries E m h src →
    ∃ loc s, h.locate E src = some (loc, s) ∧ s.items E m = entries E m h src

variable {E : Env} {s1 s2 : Int} {m : Memory Key} {h : Holemerge Key}

theorem Homed.housing (g : Grounded E m h) (o : Homed E m h) : Housing E m h := by
  have exactly : ∀ s ∈ h.slots E, ((h.slots E).filter fun t => t.src = s.src).card = 1 := by
    intro s hs
    obtain ⟨rest, split⟩ := Multiset.exists_cons_of_mem hs
    have others : (rest.filter fun t => t.src = s.src) = 0 :=
      Multiset.filter_eq_nil.mpr fun t ht => o.other_src split ht
    have head : (s ::ₘ rest).filter (fun t => t.src = s.src) = s ::ₘ rest.filter fun t => t.src = s.src :=
      Multiset.filter_cons_of_pos _ rfl
    rw [split, head, others]
    rfl
  refine ⟨?_, ?_, ?_, g.apart, ?_⟩
  · rintro src (⟨x, hx⟩ | ⟨d, hd, rfl⟩)
    · obtain ⟨s, hs, rfl, -⟩ := mem_entries.mp hx
      exact exactly s hs
    · obtain ⟨s, hs, same⟩ := o.owners d hd
      exact same ▸ exactly s hs
  · intro src
    by_cases present : ∃ s ∈ h.slots E, s.src = src
    · obtain ⟨s, hs, rfl⟩ := present
      exact (exactly s hs).le
    · push Not at present
      rw [Multiset.filter_eq_nil.mpr present]
      exact Nat.zero_le 1
  · intro t ht flag i b here s hs used
    obtain ⟨inside, rfl⟩ := List.getElem?_eq_some_iff.mp here
    exact (g.framed.placed t ht flag i inside s hs used).symm
  · intro src x hx
    obtain ⟨s, hs, same, -⟩ := mem_entries.mp hx
    cases located : h.locate E src with
    | none => exact absurd same (locate_none g.framed located s hs)
    | some place =>
        obtain ⟨loc, s'⟩ := place
        obtain ⟨stands, rfl⟩ := locate_some g.framed located
        have known : s'.src ≠ 0 := same ▸ g.framed.slot_src hs
        obtain ⟨rest, split⟩ := Multiset.exists_cons_of_mem (stands.mem g.framed known)
        exact ⟨loc, s', rfl, (entries_self o split).symm⟩

/-- Unless a deletion fails at the level of the links, every source has one home. -/
theorem reached_housing (reached : Reached Guard.homes E s1 s2 m h) : Housing E m h := by
  obtain ⟨g, o⟩ := reached.homed
  exact o.housing g

theorem housing_poured :
    let s := played spread 1 0 221 pourCalls
    s.1.sblacklist = [⟨1, 216⟩] ∧ (s.2.locate spread 1).map (fun p => p.2.addrs.length) = some 2 ∧
      s.2.link.toList.map Table.num = [11, 22] ∧ Housing spread s.1 s.2 := by
  obtain ⟨list, two, links⟩ := pour_state
  exact ⟨list, two, links, reached_housing pour_reached.counts_of_clean.homes_of_counts⟩

/-- Sources 1, .., 16 and 100 collide under both seeds. -/
def colliding16 : Env :=
  ⟨fun k s => if k ≤ 16 ∨ k = 100 then 0 else if s = 221 then 1 else 1 + (k % 3).toNat, fun _ => 0⟩

/-- A pour of links leaves source 100 in two `bSlot`s which share their S-CHTs. -/
def twinCalls : List Call :=
  (List.range 66).map (fun i : Nat => .insert ⟨i + 1, 7⟩) ++ (List.range 7).map (fun i : Nat => .insert ⟨100, i + 1⟩) ++
    (List.range 34).map (fun i : Nat => .del ⟨i + 17, 7⟩)

theorem twins_share :
    let s := played colliding16 3 0 221 twinCalls
    Reached Guard.all colliding16 0 221 s.1 s.2 ∧ s.2.query colliding16 s.1 ⟨100, 1⟩ ≠ 0 ∧
      ((s.2.slots colliding16).filter fun b => b.src = 100).card = 2 ∧
      ¬ Housing colliding16 s.1 s.2 := by
  intro s
  have two : ((s.2.slots colliding16).filter fun b => b.src = 100).card = 2 := by decide +kernel
  refine ⟨played_reached colliding16 3 0 221 (by decide), by decide +kernel, two, fun housing => ?_⟩
  have most := housing.most 100
  omega

end CuckooGraph
