import CuckooGraph.Gss.Edges

/-! # The edges of a node, read off its rows or columns

The node queries go over all rows of a node and stop at the rooms with its
fingerprint and the place of the row. These are the rooms of its edges, and the
place of the other node tells which node that is.
-/

namespace CuckooGraph.Gss

open Probing

variable {P : Params} {t : Gss} {st : Store (Node P × Node P) (Nat × Nat) Label (BitVec 16)}

/-- The edge between `a` and `b`, out of `a` or into it. -/
def Side.edge : Side → Node P → Node P → Node P × Node P
  | .out, a, b => (a, b)
  | .into, a, b => (b, a)

/-- What the label of a room says. -/
theorem Models.occupied (models : Models t st) (settled : st.Settled (probes P)) {pos j : Nat}
    (full : (t.value pos).src j ≠ 0) :
    ∃ x y : Node P, ∃ i1 < P.r, ∃ i2 < P.r, j < P.s ∧ pos = (candidate P x.1 y.1 i1 i2).pos ∧
      (t.value pos).src j = x.1.g ∧ (t.value pos).dst j = y.1.g ∧
      (t.value pos).srcPlace j = i1 ∧ (t.value pos).dstPlace j = i2 ∧
      (settle st.cells (probes P (x, y))).map Prod.fst = some (pos, j) ∧
      st.inside (probes P) (x, y) = some ((t.value pos).weight j) := by
  have cell : st.cells (pos, j) =
      some (⟨(t.value pos).places j, (t.value pos).src j, (t.value pos).dst j⟩, (t.value pos).weight j) := by
    rw [← models.cells]
    exact if_neg full
  obtain ⟨⟨x, y⟩, place⟩ := settled.owner _ _ _ cell
  have probe := settle_mem place
  have here := (settled.inside_eq_some probes_apart).mpr ⟨_, probe, cell⟩
  obtain ⟨i1, h1, i2, h2, j', hj, same⟩ := mem_probes probe
  have bound := P.r_le
  simp only [Prod.mk.injEq, Candidate.label, Label.mk.injEq] at same
  obtain ⟨⟨rfl, rfl⟩, places, src, dst⟩ := same
  rw [candidate_places _ _ (by omega)] at places
  refine ⟨x, y, i1, h1, i2, h2, hj, rfl, src, dst, ?_, ?_, congrArg (Option.map Prod.fst) place, here⟩
  · rw [srcPlace_eq]
    omega
  · rw [dstPlace_eq]
    omega

theorem mem_rooms {side : Side} {value : Nat → Basket} {a : Mapnode} {room : Room} :
    room ∈ rooms P side value a ↔ side.nearPlace (value room.pos) room.j < P.r ∧ room.k < P.w ∧ room.j < P.s ∧
      room.pos = side.pos P ((a.h + tmp a.g (side.nearPlace (value room.pos) room.j)) % P.w) room.k ∧
      side.near (value room.pos) room.j = a.g := by
  simp only [rooms, List.mem_flatMap, List.mem_range, List.mem_map, List.mem_filter, decide_eq_true_eq]
  constructor
  · rintro ⟨i, hi, k, hk, j, ⟨hj, place, near⟩, rfl⟩
    simp only [place]
    exact ⟨hi, hk, hj, trivial, near⟩
  · rintro ⟨hi, hk, hj, pos, near⟩
    refine ⟨_, hi, room.k, hk, room.j, ⟨hj, ?_, ?_⟩, ?_⟩
    · rw [← pos]
    · rw [← pos, near]
    · rw [← pos]

theorem nodup_rooms (side : Side) (value : Nat → Basket) (a : Mapnode) : (rooms P side value a).Nodup := by
  refine List.nodup_flatMap.mpr ⟨fun i _ => List.nodup_flatMap.mpr ⟨fun k _ => ?_, ?_⟩, ?_⟩
  · exact (List.nodup_range.filter _).map fun j j' same => (Room.mk.inj same).2.2
  · refine List.nodup_range.imp fun {k k'} other room here there => ?_
    obtain ⟨j, -, rfl⟩ := List.mem_map.mp here
    obtain ⟨j', -, same⟩ := List.mem_map.mp there
    exact other (Room.mk.inj same).1.symm
  · refine List.nodup_range.imp fun {i i'} other room here there => other ?_
    obtain ⟨k, -, here⟩ := List.mem_flatMap.mp here
    obtain ⟨k', -, there⟩ := List.mem_flatMap.mp there
    obtain ⟨j, hj, rfl⟩ := List.mem_map.mp here
    obtain ⟨j', hj', same⟩ := List.mem_map.mp there
    obtain ⟨-, pos, rfl⟩ := Room.mk.inj same
    simp only [List.mem_filter, decide_eq_true_eq] at hj hj'
    rw [← hj.2.1, ← hj'.2.1, pos]

/-- Each room of a node query is that of an edge of the node. -/
theorem Models.room_edge (models : Models t st) (settled : st.Settled (probes P)) {side : Side} {a : Node P} {room : Room}
    (stop : room ∈ rooms P side t.value a.1) :
    ∃ b : Node P, farNode P side t.value room = b.1 ∧
      (settle st.cells (probes P (side.edge a b))).map Prod.fst = some (room.pos, room.j) ∧
      st.inside (probes P) (side.edge a b) = some ((t.value room.pos).weight room.j) := by
  obtain ⟨hi, hk, hj, pos, near⟩ := mem_rooms.mp stop
  have full : (t.value room.pos).src room.j ≠ 0 := by
    intro empty
    cases side with
    | out => exact a.2.2.1 (near.symm.trans empty)
    | into => exact a.2.2.1 (near.symm.trans (models.fresh _ _ empty).2)
  obtain ⟨x, y, i1, h1, i2, h2, -, same, src, dst, srcPlace, dstPlace, place, here⟩ := models.occupied settled full
  rw [pos] at same
  cases side with
  | out =>
      simp only [Side.pos, Side.near, Side.nearPlace, candidate, srcPlace] at same near
      obtain ⟨row, column⟩ := pos_inj hk (Nat.mod_lt _ P.w_pos) same
      have source : a = x := Subtype.ext (row_inj a.2 x.2 (near.symm.trans src) row)
      subst source
      refine ⟨y, ?_, place, here⟩
      rw [farNode, Side.far, Side.farPlace, dst, dstPlace, column]
      exact original_eq y.2 i2
  | into =>
      simp only [Side.pos, Side.near, Side.nearPlace, candidate, dstPlace] at same near
      obtain ⟨row, column⟩ := pos_inj (Nat.mod_lt _ P.w_pos) (Nat.mod_lt _ P.w_pos) ((Nat.add_comm _ _).trans same)
      have target : a = y := Subtype.ext (row_inj a.2 y.2 (near.symm.trans dst) column)
      subst target
      refine ⟨x, ?_, place, here⟩
      rw [farNode, Side.far, Side.farPlace, src, srcPlace, row]
      exact original_eq x.2 i1

/-- Each edge of the node has such a room. -/
theorem Models.edge_room (models : Models t st) (settled : st.Settled (probes P)) {side : Side} {a b : Node P}
    {v : BitVec 16} (here : st.inside (probes P) (side.edge a b) = some v) :
    ∃ room ∈ rooms P side t.value a.1, farNode P side t.value room = b.1 := by
  obtain ⟨q, hq, cell⟩ := (settled.inside_eq_some probes_apart).mp here
  obtain ⟨i1, h1, i2, h2, j, hj, rfl⟩ := mem_probes hq
  rw [← models.cells, view, Basket.cell_eq_some (side.edge a b).1.2.2.1] at cell
  obtain ⟨holds, -⟩ := cell
  simp only [Basket.holds, decide_eq_true_eq] at holds
  obtain ⟨places, src, dst⟩ := holds
  have bound := P.r_le
  rw [candidate_places _ _ (by omega)] at places
  have srcPlace := srcPlace_eq (t.value (candidate P (side.edge a b).1.1 (side.edge a b).2.1 i1 i2).pos) j
  have dstPlace := dstPlace_eq (t.value (candidate P (side.edge a b).1.1 (side.edge a b).2.1 i1 i2).pos) j
  rw [places] at srcPlace dstPlace
  have srcPlace := srcPlace.trans (show (i2 * 16 + i1) % 16 = i1 by omega)
  have dstPlace := dstPlace.trans (show (i2 * 16 + i1) / 16 = i2 by omega)
  have row := Nat.mod_lt ((side.edge a b).1.1.h + tmp (side.edge a b).1.1.g i1) P.w_pos
  have column := Nat.mod_lt ((side.edge a b).2.1.h + tmp (side.edge a b).2.1.g i2) P.w_pos
  cases side with
  | out =>
      refine ⟨⟨_, _, j⟩, mem_rooms.mpr ⟨srcPlace.trans_lt h1, column, hj, ?_, src⟩, ?_⟩
      · simp only [Side.nearPlace, srcPlace]
        rfl
      · simp only [farNode, Side.far, Side.farPlace, dst, dstPlace]
        exact original_eq b.2 i2
  | into =>
      refine ⟨⟨_, _, j⟩, mem_rooms.mpr ⟨dstPlace.trans_lt h2, row, hj, ?_, dst⟩, ?_⟩
      · simp only [Side.nearPlace, dstPlace]
        exact Nat.add_comm _ _
      · simp only [farNode, Side.far, Side.farPlace, src, srcPlace]
        exact original_eq b.2 i1

/-- No two rooms of a node query are for the same node. -/
theorem Models.nodup_far (models : Models t st) (settled : st.Settled (probes P)) (side : Side) (a : Node P) :
    ((rooms P side t.value a.1).map (farNode P side t.value)).Nodup := by
  refine (nodup_rooms side t.value a.1).map_on fun room stop room' stop' same => ?_
  obtain ⟨b, far, place, -⟩ := models.room_edge settled stop
  obtain ⟨b', far', place', -⟩ := models.room_edge settled stop'
  obtain rfl : b = b' := Subtype.ext (far.symm.trans (same.trans far'))
  obtain ⟨-, hk, -, pos, -⟩ := mem_rooms.mp stop
  obtain ⟨-, hk', -, pos', -⟩ := mem_rooms.mp stop'
  cases room with
  | mk k p j =>
      cases room' with
      | mk k' p' j' =>
          obtain ⟨rfl, rfl⟩ := Prod.mk.inj (Option.some.inj (place.symm.trans place'))
          have columns := pos.symm.trans pos'
          have column : k = k' := by
            cases side with
            | out => exact (pos_inj hk hk' columns).2
            | into =>
                simp only [Side.pos, Nat.add_comm _ (_ * P.w)] at columns
                exact (pos_inj (Nat.mod_lt _ P.w_pos) (Nat.mod_lt _ P.w_pos) columns).1
          rw [column]

end CuckooGraph.Gss
