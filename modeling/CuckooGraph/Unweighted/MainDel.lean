import CuckooGraph.Unweighted.LinkContract

/-! # main_del

What a deletion does to the `bSlot`s of a graph. There are four ways for it to
go wrong, each with a condition on the state before: a pour of S-CHTs, a pour of
links, a husk in a link, and a halved link with a layer of odd length.
-/

namespace CuckooGraph

open TwoLayer

namespace Holemerge

variable {E : Env} {m : Memory Key} {h : Holemerge Key} {e : Edge}

/-- No pour of S-CHTs in `bSlot::del` goes wrong. -/
def SlotsSafe (E : Env) (m : Memory Key) (h : Holemerge Key) (e : Edge) : Prop :=
  ∀ loc s, h.locate E e.src = some (loc, s) → s.PourSafe E m e

/-- No pour of links in `main_del` goes wrong. -/
def LinksSafe (E : Env) (m : Memory Key) (h : Holemerge Key) (e : Edge) : Prop :=
  ∀ i flag ha j s, h.locate E e.src = some (.link i flag ha j, s) → (s.del E m e).2.2 < 0 →
    PoursClean E (s.del E m e).1 ((h.setAt E (.link i flag ha j) (s.del E m e).2.1).uncount i)

/-- No link with a layer of odd length is halved in `main_del`. -/
def LinksEven (E : Env) (m : Memory Key) (h : Holemerge Key) (e : Edge) : Prop :=
  ∀ i flag ha j s, h.locate E e.src = some (.link i flag ha j, s) → (s.del E m e).2.2 < 0 →
    HalvesEven ((h.setAt E (.link i flag ha j) (s.del E m e).2.1).uncount i)

/-- The deletion leaves no husk in a link. -/
def NoHusk (E : Env) (m : Memory Key) (h : Holemerge Key) (e : Edge) : Prop :=
  ∀ i flag ha j s, h.locate E e.src = some (.link i flag ha j, s) → ¬ s.Husk m e

section Checks

instance decidableLinked {o : Option (Loc × BSlot Key)} {p : Nat → Bool → Nat → Nat → BSlot Key → Prop}
    [∀ i flag ha j s, Decidable (p i flag ha j s)] :
    Decidable (∀ i flag ha j s, o = some (.link i flag ha j, s) → p i flag ha j s) :=
  match o with
  | some (.link i flag ha j, s) => decidable_of_iff (p i flag ha j s)
      ⟨fun holds _ _ _ _ _ same => by cases same; exact holds, fun all => all i flag ha j s rfl⟩
  | some (.denied _, _) => isTrue fun _ _ _ _ _ same => by cases same
  | none => isTrue fun _ _ _ _ _ same => by cases same

instance : Decidable (SlotsSafe E m h e) :=
  decidable_of_iff (∀ place ∈ h.locate E e.src, place.2.PourSafe E m e)
    ⟨fun all loc s found => all (loc, s) found, fun all place found => all place.1 place.2 found⟩

instance : Decidable (LinksSafe E m h e) := decidableLinked

instance : Decidable (LinksEven E m h e) := decidableLinked

instance : Decidable (NoHusk E m h e) := decidableLinked

end Checks

section Uncount

theorem uncount_framed (framed : h.Framed E) (i : Nat) : (h.uncount i).Framed E ∧
    (h.uncount i).slots E = h.slots E := by
  cases linked : h.link.get i with
  | none => simpa [uncount, linked] using framed
  | some t =>
      have ht := Three.mem_toList.mpr ⟨i, linked⟩
      have size : Table.SameSize t { t with num := t.num - 1 } := fun flag => by simp
      have exchange := slots_setLink (E := E) linked { t with num := t.num - 1 } h.blacklist
      simp only [uncount, linked]
      refine ⟨framed.setLink linked size (fun flag => ?_) (framed.tidy t ht) framed.listed, ?_⟩
      · simpa using framed.placed t ht flag
      · exact add_right_cancel exchange

/-- Emptying a cell of a link and counting one `bSlot` less. -/
theorem empty_moves (framed : h.Framed E) {i : Nat} {flag : Bool} {ha j : Nat} {s : BSlot Key}
    (stands : h.Stands E (.link i flag ha j) s) (known : s.src ≠ 0) :
    let h' := (h.setAt E (.link i flag ha j) BSlot.empty).uncount i
    h.Moves E h' {s} 0 ∧ h.Tallies E h' := by
  obtain ⟨t, linked, cell, -⟩ := stands
  have ht := Three.mem_toList.mpr ⟨i, linked⟩
  let t1 := t.overwrite (h.slotCells E) flag ha j BSlot.empty
  let t' : BCuckoo Key := { t1 with num := t1.num - 1 }
  have unfolded : (h.setAt E (.link i flag ha j) BSlot.empty).uncount i =
      { h with link := h.link.set i (some t'), blacklist := h.blacklist } := by
    have again : (h.link.set i (some t1)).get i = some t1 := Three.get_set_self linked
    simp only [setAt, linked]
    change Holemerge.uncount { h with link := h.link.set i (some t1) } i = _
    simp only [uncount, again]
    rw [Three.set_set]
  have used : s.isSlotEmpty = false := by
    have zero := (framed.tidy t ht s cell.mem).src_eq_zero
    by_contra vacant
    exact known (zero.mpr (by simpa using vacant))
  have stored : t'.stored (h.slotCells E) + {s} = t.stored (h.slotCells E) := by
    have exchange := Table.stored_overwrite (H := h.slotCells E) (x := BSlot.empty) cell
    rw [Cells.occupied_singleton (H := h.slotCells E) used,
      Cells.occupied_singleton_free (H := h.slotCells E) (x := BSlot.empty) rfl, add_zero] at exchange
    exact exchange
  have first : Table.SameSize t t1 := Table.overwrite_size
  have size : Table.SameSize t t' := fun side => by
    rw [← first side]
    cases side <;> rfl
  intro h'
  have whole : h' = _ := unfolded
  rw [whole]
  refine ⟨⟨framed.setLink linked size (fun side => ?_) (fun b hb => ?_) framed.listed, ?_⟩,
    tallied_setLink linked (fun counted => ?_) h.blacklist⟩
  · have placed := Table.placed_overwrite (x := BSlot.empty) cell (framed.placed t ht)
      (fun occupied => by cases occupied)
    simpa [t'] using placed side
  · rcases Table.mem_overwrite cell (show b ∈ t1.cells from hb) with hb | rfl
    · exact framed.tidy t ht b hb
    · exact BSlot.tidy_empty
  · have exchange := slots_setLink (E := E) linked t' h.blacklist
    rw [← stored] at exchange
    apply add_right_cancel (b := t'.stored (h.slotCells E) + ↑h.blacklist)
    rw [add_zero, ← exchange]
    ac_rfl
  · have card := congrArg Multiset.card stored
    rw [Multiset.card_add, Multiset.card_singleton] at card
    rw [Table.Counted] at counted ⊢
    change t1.num - 1 = _
    rw [Table.overwrite_num, counted, ← card]
    push_cast
    ring

end Uncount

section Lengths

/-- The lengths of the layers of the links. -/
def lens (link : Three (BCuckoo Key)) : Three (Nat × Nat) := link.map fun t => some (t.len1, t.len2)

theorem lens_set {link : Three (BCuckoo Key)} {i : Nat} {t t' : BCuckoo Key}
    (found : link.get i = some t) (size : Table.SameSize t t') :
    lens (link.set i (some t')) = lens link := by
  obtain ⟨s0, s1, s2⟩ := link
  have inside := Three.get_lt found
  interval_cases i <;>
    · simp only [Three.get] at found
      subst found
      simp only [lens, Three.set, Three.map, Option.bind_some, size.len1, size.len2]

theorem lens_setAt (s : BSlot Key) (loc : Loc) : lens (h.setAt E loc s).link = lens h.link := by
  cases loc with
  | denied j => rfl
  | link i flag ha j =>
      cases linked : h.link.get i with
      | none => simp only [setAt, linked]
      | some t =>
          simp only [setAt, linked]
          exact lens_set linked Table.overwrite_size

theorem lens_uncount (i : Nat) : lens (h.uncount i).link = lens h.link := by
  cases linked : h.link.get i with
  | none => simp only [uncount, linked]
  | some t =>
      simp only [uncount, linked]
      exact lens_set linked fun flag => by simp

/-- A graph of the sizes which the program uses by default is halved exactly. -/
theorem Framed.linksEven (framed : h.Framed E) (sizes : h.ll1 = bl1 ∧ h.ll2 = bl2) :
    LinksEven E m h e := by
  intro i flag ha j s _ _ c0 shape _
  have same : lens h.link = ⟨some (c0.len1, c0.len2), none, none⟩ := by
    rw [← lens_setAt (E := E) (s.del E m e).2.1 (.link i flag ha j), ← lens_uncount i, shape]
    rfl
  have tower := framed.tower
  rw [sizes.1, sizes.2] at tower
  generalize h.link = link at same tower
  cases tower with
  | one base =>
      simp only [lens, Three.map, Option.bind_some, Three.mk.injEq, Option.some.injEq, Prod.mk.injEq] at same
      obtain ⟨⟨len1, len2⟩, -⟩ := same
      rw [← len1, ← len2]
      exact base.doubled.even
  | _ => simp [lens, Three.map] at same

end Lengths

section Cases

variable (E) (m) (h) (e)
variable (s : BSlot Key) (rest : Multiset (BSlot Key)) (r : Memory Key × Holemerge Key × Int)

/-- The `bSlot` of the source is written back. -/
structure Rewrites : Prop where
  ret : r.2.2 = (s.del E m e).2.2 ∧ r.2.2 ≠ -1
  memory : r.1 = (s.del E m e).1
  framed : r.2.1.Framed E
  whole : r.2.1.slots E = (s.del E m e).2.1 ::ₘ rest
  tallies : h.Tallies E r.2.1

/-- The `bSlot` of the source goes. -/
structure Erases : Prop where
  ret : r.2.2 = -1 ∧ (s.del E m e).2.2 = -1
  memory : ∃ n, r.1 = { (s.del E m e).1 with rands := n }
  framed : r.2.1.Framed E
  le : LinksSafe E m h e → r.2.1.slots E ≤ (s.del E m e).2.1 ::ₘ rest
  whole : LinksSafe E m h e → NoHusk E m h e → h.Tallied E →
    r.2.1.slots E = rest ∧ r.2.1.Tallied E

variable {E m h e s rest r}

/-- `main_del` when the `bSlot` stays. -/
theorem mainDel_rewrites (framed : h.Framed E) {loc : Loc} (found : h.locate E e.src = some (loc, s))
    (known : e.src ≠ 0) (split : h.slots E = s ::ₘ rest) (dropped : BSlot.Dropped E m s e (s.del E m e))
    (src : (s.del E m e).2.1.src = s.src)
    (ret : (s.del E m e).2.2 = 1 ∨ (s.del E m e).2.2 = 2) :
    Rewrites E m h e s rest (mainDel E m h e) := by
  obtain ⟨stands, same⟩ := locate_some framed found
  obtain ⟨moves, tallies⟩ := setAt_moves framed stands (same ▸ known) dropped.turn.tidy src
  have unfolded : mainDel E m h e =
      ((s.del E m e).1, h.setAt E loc (s.del E m e).2.1, (s.del E m e).2.2) := by
    cases loc <;> rcases ret with ret | ret <;> simp [mainDel, found, ret]
  rw [unfolded]
  refine ⟨⟨rfl, ?_⟩, rfl, moves.framed, moves.exchange split, tallies⟩
  rcases ret with ret | ret <;> simp [ret]

/-- `main_del` when a `bSlot` in `blacklist` goes. -/
theorem mainDel_denied (framed : h.Framed E) {j : Nat} (found : h.locate E e.src = some (.denied j, s))
    (split : h.slots E = s ::ₘ rest) (ret : (s.del E m e).2.2 = -1) :
    Erases E m h e s rest (mainDel E m h e) := by
  have here : h.blacklist[j]? = some s := (locate_some framed found).1
  obtain ⟨hj, at_⟩ := List.getElem?_eq_some_iff.mp here
  have unfolded : mainDel E m h e =
      ((s.del E m e).1, { h with blacklist := h.blacklist.eraseIdx j }, -1) := by
    simp [mainDel, found, ret]
  have whole : ({ h with blacklist := h.blacklist.eraseIdx j } : Holemerge Key).slots E = rest := by
    have perm : (↑h.blacklist : Multiset (BSlot Key)) = s ::ₘ ↑(h.blacklist.eraseIdx j) := by
      rw [Multiset.cons_coe, ← at_]
      exact (Multiset.coe_eq_coe.mpr (List.getElem_cons_eraseIdx_perm hj)).symm
    rw [slots, perm, Multiset.add_cons] at split
    exact (Multiset.cons_inj_right s).mp split
  rw [unfolded]
  refine ⟨⟨rfl, ret⟩, ⟨_, rfl⟩, ?_, fun _ => ?_, fun _ _ tallied => ⟨whole, tallied⟩⟩
  · refine ⟨framed.sizes, framed.state, framed.tower, framed.placed, framed.tidy, fun b hb => ?_⟩
    exact framed.listed b (List.mem_of_mem_eraseIdx hb)
  · rw [whole]
    exact Multiset.le_cons_self rest _

/-- The links before the contraction, a `bSlot` having been emptied or become a husk. -/
theorem emptied (framed : h.Framed E) {i : Nat} {flag : Bool} {ha j : Nat}
    (stands : h.Stands E (.link i flag ha j) s) (used : s.src ≠ 0) (split : h.slots E = s ::ₘ rest)
    {d : Memory Key × BSlot Key × Int} (ending : BSlot.Ending m s e d) (ret : d.2.2 = -1)
    (tidy : d.2.1.Tidy) :
    let h' := (h.setAt E (.link i flag ha j) d.2.1).uncount i
    h'.Framed E ∧ h'.slots E ≤ d.2.1 ::ₘ rest ∧
      (¬ s.Husk m e → h'.slots E = rest ∧ h.Tallies E h') := by
  cases ending with
  | absent => cases ret
  | stays src heeds => cases ret
  | gone own =>
      intro h'
      obtain ⟨moves, tallies⟩ := empty_moves framed stands used
      have whole : h'.slots E = rest := by
        have slots := moves.slots
        rw [split, add_zero, ← Multiset.singleton_add, add_comm] at slots
        exact add_left_cancel slots
      exact ⟨moves.framed, whole ▸ Multiset.le_cons_self rest _, fun _ => ⟨whole, tallies⟩⟩
  | husk hollow own =>
      intro h'
      obtain ⟨moves, -⟩ := setAt_moves framed stands used tidy rfl
      obtain ⟨framed', same⟩ := uncount_framed moves.framed i
      exact ⟨framed', (same.trans (moves.exchange split)).le, fun solid => absurd hollow solid⟩

/-- `main_del` when a `bSlot` in a link goes, or should. -/
theorem mainDel_link (framed : h.Framed E) {i : Nat} {flag : Bool} {ha j : Nat}
    (found : h.locate E e.src = some (.link i flag ha j, s)) (known : e.src ≠ 0)
    (split : h.slots E = s ::ₘ rest) (dropped : BSlot.Dropped E m s e (s.del E m e))
    (ret : (s.del E m e).2.2 = -1) (even : LinksEven E m h e) :
    Erases E m h e s rest (mainDel E m h e) := by
  obtain ⟨stands, same⟩ := locate_some framed found
  obtain ⟨framed', le, whole⟩ :=
    emptied framed stands (same ▸ known) split dropped.ending ret dropped.turn.tidy
  have contracted := contract_contracted (m := (s.del E m e).1) framed'
    (even i flag ha j s found (by rw [ret]; decide))
  have unfolded : mainDel E m h e =
      ((contract E (s.del E m e).1 ((h.setAt E (.link i flag ha j) (s.del E m e).2.1).uncount i)).1,
        (contract E (s.del E m e).1 ((h.setAt E (.link i flag ha j) (s.del E m e).2.1).uncount i)).2,
        -1) := by
    simp [mainDel, found, ret]
  have safe := fun clean : LinksSafe E m h e => clean i flag ha j s found (by rw [ret]; decide)
  rw [unfolded]
  refine ⟨⟨rfl, ret⟩, contracted.memory, contracted.framed, fun clean => ?_, fun clean plain tallied => ?_⟩
  · exact (contracted.le (safe clean)).trans le
  · obtain ⟨slots, tallies⟩ := whole (plain i flag ha j s found)
    obtain ⟨same, tallied⟩ := contracted.kept (safe clean) (tallies tallied)
    exact ⟨same.trans slots, tallied⟩

/-- The `bSlot` which `main_del` finds. -/
structure Finds (E : Env) (m : Memory Key) (h : Holemerge Key) (e : Edge) (s : BSlot Key)
    (rest : Multiset (BSlot Key)) : Prop where
  located : ∃ loc, h.locate E e.src = some (loc, s)
  split : h.slots E = s ::ₘ rest
  src : s.src = e.src
  dropped : BSlot.Dropped E m s e (s.del E m e)

theorem Finds.mem (finds : Finds E m h e s rest) : s ∈ h.slots E := by
  rw [finds.split]
  exact Multiset.mem_cons_self s rest

/-- `main_del` writes the `bSlot` of the source back, or drops it, or does not find it. -/
theorem mainDel_cases (g : Grounded E m h) (known : e.src ≠ 0) (hd : e.dst ≠ 0)
    (even : LinksEven E m h e) :
    (∃ s rest, Finds E m h e s rest ∧
        (Rewrites E m h e s rest (mainDel E m h e) ∨ Erases E m h e s rest (mainDel E m h e))) ∨
      (∀ s ∈ h.slots E, s.src ≠ e.src) ∧ mainDel E m h e = (m, h, 0) := by
  cases found : h.locate E e.src with
  | none => exact .inr ⟨locate_none g.framed found, by simp [mainDel, found]⟩
  | some place =>
      obtain ⟨loc, s⟩ := place
      obtain ⟨stands, same⟩ := locate_some g.framed found
      have hs := stands.mem g.framed (same ▸ known)
      obtain ⟨rest, split⟩ := Multiset.exists_cons_of_mem hs
      have dropped : BSlot.Dropped E m s e (s.del E m e) :=
        BSlot.del_dropped (g.framed.slot_tidy hs).1 (g.rooted s hs) same known hd
      refine .inl ⟨s, rest, ⟨⟨loc, found⟩, split, same, dropped⟩, ?_⟩
      by_cases ret : (s.del E m e).2.2 = -1
      · right
        cases loc with
        | link i flag ha j => exact mainDel_link g.framed found known split dropped ret even
        | denied j => exact mainDel_denied g.framed found split ret
      · left
        have src := dropped.ending.stays_src ret
        exact mainDel_rewrites g.framed found known split dropped src (dropped.ending.stays_ret ret)

end Cases

end Holemerge

end CuckooGraph
