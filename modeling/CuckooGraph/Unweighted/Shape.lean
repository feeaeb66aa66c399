import CuckooGraph.Unweighted.Homes

/-! # The shape of every reachable state

With no bad pour of links, the tables at either level form a prefix whose sizes
are in ratio, and nothing dead or null is ever followed.
-/

namespace CuckooGraph

open TwoLayer Holemerge

/-- The tables form a prefix. The first has `(l1 * 2^k, l2 * 2^k)` buckets, the
    others half of each, and no layer is empty. -/
structure Sized {β : Type} (l1 l2 : Nat) (t : Three (Table bup β)) : Prop where
  pref : (t.s2 ≠ none → t.s1 ≠ none) ∧ (t.s1 ≠ none → t.s0 ≠ none)
  base : ∀ c0, t.s0 = some c0 → ∃ k, c0.len1 = l1 * 2 ^ k ∧ c0.len2 = l2 * 2 ^ k
  half : ∀ c0 c, t.s0 = some c0 → t.s1 = some c ∨ t.s2 = some c →
    c.len1 * 2 = c0.len1 ∧ c.len2 * 2 = c0.len2
  ready : ∀ c ∈ t.toList, 0 < c.len1 ∧ 0 < c.len2

theorem Table.HalfOf.exact {β : Type} {c0 c : Table bup β} (half : c0.HalfOf c)
    (even : 2 ∣ c0.len1 ∧ 2 ∣ c0.len2) : c.len1 * 2 = c0.len1 ∧ c.len2 * 2 = c0.len2 := by
  obtain ⟨h1, h2⟩ := half
  obtain ⟨e1, e2⟩ := even
  rw [h1, h2]
  exact ⟨Nat.div_mul_cancel e1, Nat.div_mul_cancel e2⟩

theorem sized_of_tower {β : Type} {t : Three (Table bup β)} (tower : t.Tower 4 2) : Sized 4 2 t := by
  have ready := tower.ready
  refine ⟨?_, ?_, ?_, fun c hc => ⟨ready c hc true, ready c hc false⟩⟩
  · cases tower <;> simp
  · intro c0 first
    cases tower <;> cases first <;> exact Table.Scaled.doubled ‹_›
  · intro c0 c first other
    cases tower with
    | none => cases first
    | one base => rcases other with other | other <;> cases other
    | two base half1 =>
        cases first
        rcases other with other | other <;> cases other
        exact Table.HalfOf.exact half1 base.doubled.even
    | three base half1 half2 =>
        cases first
        rcases other with other | other <;> cases other
        · exact Table.HalfOf.exact half1 base.doubled.even
        · exact Table.HalfOf.exact half2 base.doubled.even

/-- The shape of a graph. -/
structure Shaped (E : Env) (m : Memory Key) (h : Holemerge Key) : Prop where
  links : ∀ i, i < 3 → (h.link.get i ≠ none ↔ (i : Int) ≤ h.state)
  tower : Sized bl1 bl2 h.link
  live : ∀ s ∈ h.slots E, ∀ a ∈ s.addrs, m.heap.get a ≠ none
  slots : ∀ s ∈ h.slots E, ∀ slot, s.body = .chts slot → Sized u1 u2 (slot.map m.heap.get)
  inline : ∀ s, (∃ t ∈ h.link.toList, s ∈ t.cells) ∨ s ∈ h.blacklist → ∀ pt cells,
    s.body = .inline pt cells →
      cells.countP (· ≠ 0) = pt ∧ pt ≤ Entry.lt Key ∧ (s.src = 0 ↔ pt = 0)
  sound : m.fault = false

variable {E : Env} {s1 s2 : Int} {m : Memory Key} {h : Holemerge Key}

theorem Grounded.shaped (g : Grounded E m h) (made : h.made = ((bl1, bl2), s1, s2)) : Shaped E m h where
  links i hi := by
    rcases g.framed.cases with ⟨shape, state⟩ | ⟨t0, shape, state⟩ | ⟨t0, t1, shape, state⟩ |
      ⟨t0, t1, t2, shape, state⟩
    all_goals
      rw [shape, state]
      interval_cases i <;> simp [Three.get]
  tower := by
    have tower := g.framed.tower
    have sizes : (h.ll1, h.ll2) = (bl1, bl2) := congrArg Prod.fst made
    obtain ⟨ll1, ll2⟩ := Prod.mk.inj sizes
    rw [ll1, ll2] at tower
    exact sized_of_tower tower
  live s hs a ha := by
    obtain ⟨c, live⟩ := BSlot.addrs_live (g.rooted s hs) ha
    simp [live]
  slots s hs slot body := by
    have rooted := g.rooted s hs
    simp only [BSlot.Rooted, body] at rooted
    exact sized_of_tower rooted.tower
  inline s hs pt cells body := by
    have tidy : s.Tidy := by
      rcases hs with ⟨t, ht, hs⟩ | hs
      · exact g.framed.tidy t ht s hs
      · exact (g.framed.listed s hs).1
    simp only [BSlot.Tidy, body] at tidy
    refine ⟨?_, tidy.le, tidy.empty⟩
    rw [← tidy.count, filled, ← Multiset.countP_eq_card_filter, Multiset.coe_countP]
    rfl
  sound := g.sound

/-- Unless a pour of links fails, every reachable state is in shape. -/
theorem reached_shaped (reached : Reached Guard.shape E s1 s2 m h) : Shaped E m h :=
  reached.grounded.shaped reached.made

theorem shaped_poured :
    let s := played spread 1 0 221 pourCalls
    s.1.sblacklist = [⟨1, 216⟩] ∧ (s.2.locate spread 1).map (fun p => p.2.addrs.length) = some 2 ∧
      s.2.link.toList.map Table.num = [11, 22] ∧ Shaped spread s.1 s.2 := by
  obtain ⟨list, two, links⟩ := pour_state
  exact ⟨list, two, links, reached_shaped pour_reached.counts_of_clean.homes_of_counts.shape_of_homes⟩

/-- The first twin is emptied and its S-CHT freed; an insertion into the second
    one follows the dangling pointer. -/
def danglingCalls : List Call :=
  twinCalls ++ (List.range 7).map (fun i : Nat => .del ⟨100, i + 1⟩) ++ [.insert ⟨100, 1⟩]

theorem dangling_unsound :
    let s := played colliding16 3 0 221 danglingCalls
    Reached Guard.all colliding16 0 221 s.1 s.2 ∧ s.1.fault = true ∧ ¬ Shaped colliding16 s.1 s.2 := by
  intro s
  have followed : s.1.fault = true := by decide +kernel
  refine ⟨played_reached colliding16 3 0 221 (by decide), followed, fun shaped => ?_⟩
  have sound := shaped.sound
  rw [followed] at sound
  cases sound

end CuckooGraph
