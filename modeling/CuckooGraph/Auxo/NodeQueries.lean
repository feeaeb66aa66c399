import CuckooGraph.Auxo.Stops
import CuckooGraph.Counting

/-! # The node queries

The stops with a weight are the edges of the node, each once. The value of a node is
their sum. The neighbours are read off all stops, also off empty rooms: these give ids
which no edge has, as soon as the fingerprint of the node is used up.
-/

namespace CuckooGraph.Auxo

open Probing BasketNode

variable {P : Params} {type : Bool} {t : BasketNode} {st : Store (Node P × Node P) Spot Label (BitVec 16)} {a b : Node P}

section Rooms

variable {m : Gss.Mapnode} {level g1 : Nat} {v : Gbasket} {room : Room}

theorem mem_rooms : room ∈ rooms P type m level g1 v ↔ nearPlace P type (v.places P room.pos) < P.r ∧ room.k < P.w ∧
    room.pos = cell P type (poses P m (nearPlace P type (v.places P room.pos))) room.k ∧
    near P type level v room.pos = g1 := by
  simp only [rooms, List.mem_flatMap, List.mem_range, List.mem_map, List.mem_filter, decide_eq_true_eq]
  constructor
  · rintro ⟨i, hi, k, ⟨hk, fig, place⟩, rfl⟩
    simp only [place, fig]
    exact ⟨hi, hk, trivial, trivial⟩
  · rintro ⟨hi, hk, pos, fig⟩
    refine ⟨_, hi, room.k, ⟨hk, ?_, ?_⟩, ?_⟩
    · rw [← pos, fig]
    · rw [← pos]
    · rw [← pos]

theorem nodup_rooms : (rooms P type m level g1 v).Nodup := by
  refine List.nodup_flatMap.mpr ⟨fun i _ => ?_, List.nodup_range.imp fun {i i'} other room here there => other ?_⟩
  · exact (List.nodup_range.filter _).map fun k k' same => (Room.mk.inj same).2
  · obtain ⟨k, hk, rfl⟩ := List.mem_map.mp here
    obtain ⟨k', hk', same⟩ := List.mem_map.mp there
    obtain ⟨pos, rfl⟩ := Room.mk.inj same
    simp only [List.mem_filter, decide_eq_true_eq] at hk hk'
    rw [← hk.2.2, ← hk'.2.2, pos]

end Rooms

/-- No stop is made twice. -/
theorem nodup_stops {level g : Nat} {path : List Bool} {pre preLen : Nat} (here : path.length = level) :
    ((stops P type a.1 t level (nearLeft type g level) path pre preLen).map fun s => (s.path, s.room)).Nodup := by
  induction t generalizing level path pre preLen with
  | null => exact List.nodup_nil
  | node value next0 next1 ih0 ih1 =>
      have next : ∀ way, (path ++ [way]).length = level + 1 := fun way => by
        rw [List.length_append, here, List.length_singleton]
      have paths : ∀ (u : BasketNode) (way : Bool) (pre preLen : Nat) (x : List Bool × Room),
          x ∈ (stops P type a.1 u (level + 1) (nearLeft type g (level + 1)) (path ++ [way]) pre preLen).map
            (fun s => (s.path, s.room)) → ∃ rest, x.1 = path ++ way :: rest := by
        intro u way pre preLen x hx
        obtain ⟨s, hs, rfl⟩ := List.mem_map.mp hx
        obtain ⟨rest, same, -⟩ := (mem_stops (next way)).mp hs
        exact ⟨rest, by rw [same, List.append_assoc, List.singleton_append]⟩
      have mine : (((rooms P type a.1 level (nearLeft type g level) value).map
          (Stop.mk path pre preLen value)).map fun s => (s.path, s.room)).Nodup := by
        rw [List.map_map]
        exact nodup_rooms.map fun room room' same => (Prod.mk.inj same).2
      have before : ∀ x ∈ ((rooms P type a.1 level (nearLeft type g level) value).map
          (Stop.mk path pre preLen value)).map (fun s => (s.path, s.room)), x.1 = path := by
        intro x hx
        rw [List.map_map] at hx
        obtain ⟨room, -, rfl⟩ := List.mem_map.mp hx
        rfl
      have longer : ∀ way rest, path ≠ path ++ way :: rest := fun way rest same => by
        have lengths := congrArg List.length same
        simp at lengths
      rw [stops, List.map_append]
      by_cases chosen : chooses type level = true
      · have left : nearLeft type g level >>> 1 = nearLeft type g (level + 1) := by rw [nearLeft_succ, if_pos chosen]
        rw [if_pos chosen, left]
        split
        · refine List.nodup_append.mpr ⟨mine, ih1 (next true), fun x hx y hy same => ?_⟩
          obtain ⟨rest, there⟩ := paths next1 true _ _ y hy
          exact longer true rest ((before x hx).symm.trans ((congrArg Prod.fst same).trans there))
        · refine List.nodup_append.mpr ⟨mine, ih0 (next false), fun x hx y hy same => ?_⟩
          obtain ⟨rest, there⟩ := paths next0 false _ _ y hy
          exact longer false rest ((before x hx).symm.trans ((congrArg Prod.fst same).trans there))
      · have left : nearLeft type g level = nearLeft type g (level + 1) := by rw [nearLeft_succ, if_neg chosen]
        rw [if_neg chosen, List.map_append]
        refine List.nodup_append.mpr ⟨mine, List.nodup_append.mpr ⟨?_, ?_, fun x hx y hy same => ?_⟩, fun x hx y hy same => ?_⟩
        · rw [left]
          exact ih0 (next false)
        · rw [left]
          exact ih1 (next true)
        · rw [left] at hx hy
          obtain ⟨rest, here⟩ := paths next0 false _ _ x hx
          obtain ⟨rest', there⟩ := paths next1 true _ _ y hy
          have both := here.symm.trans ((congrArg Prod.fst same).trans there)
          simp at both
        · rw [left] at hy
          rcases List.mem_append.mp hy with hy | hy
          · obtain ⟨rest, there⟩ := paths next0 false _ _ y hy
            exact longer false rest ((before x hx).symm.trans ((congrArg Prod.fst same).trans there))
          · obtain ⟨rest, there⟩ := paths next1 true _ _ y hy
            exact longer true rest ((before x hx).symm.trans ((congrArg Prod.fst same).trans there))

/-- The stops of a query for a node. -/
def stopsOf (type : Bool) (t : BasketNode) (a : Node P) : List Stop := stops P type a.1 t 0 a.1.g [] 0 0

theorem stopsOf_eq : stopsOf type t a = stops P type a.1 t 0 (nearLeft type a.1.g 0) [] 0 0 := by cases type <;> rfl

theorem mem_stopsOf {s : Stop} : s ∈ stopsOf type t a ↔ (s.pre, s.preLen) = collect type 0 s.path 0 0 ∧
    t.matrix s.path = some s.value ∧ Follows type a.1.g 0 s.path ∧
    s.room ∈ rooms P type a.1 s.path.length (nearLeft type a.1.g s.path.length) s.value := by
  have start : ([] : List Bool).length = 0 := rfl
  rw [stopsOf_eq, mem_stops start]
  constructor
  · rintro ⟨rest, paths, more⟩
    obtain rfl : s.path = rest := paths
    exact more
  · exact fun more => ⟨s.path, rfl, more⟩

/-- The two places in a field. -/
theorem places_split {i1 i2 : Nat} (low : i2 < P.r) :
    (i1 * 2 ^ P.halfR + i2) >>> P.halfR = i1 ∧ (i1 * 2 ^ P.halfR + i2) &&& (2 ^ P.halfR - 1) = i2 := by
  have fits := low.trans_le P.r_le
  rw [Nat.shiftRight_eq_div_pow, Nat.and_two_pow_sub_one_eq_mod, Nat.mul_comm, Nat.mul_add_div (Nat.two_pow_pos _),
    Nat.div_eq_of_lt fits, Nat.add_zero, Nat.mul_add_mod, Nat.mod_eq_of_lt fits]
  exact ⟨rfl, rfl⟩

/-- The number of a node and its fingerprint make up its key. -/
theorem key_or (b : Node P) (i : Nat) : (calHash P b.1.g i (poses P b.1 i) <<< P.f) ||| b.1.g = key P b.1 := by
  rw [calHash_eq b.2 i, ← Nat.shiftLeft_add_eq_or_of_lt b.2.2.2, key]

theorem poses_lt (a : Node P) (i : Nat) : poses P a.1 i < P.w := Nat.mod_lt _ P.w_pos

/-- What is pushed for a room of an edge is the other node. -/
theorem neighbor_eq {v : Gbasket} {pos k level i1 i2 : Nat} {x y : Node P} (low : i2 < P.r)
    (places : v.places P pos = (spot P x.1 y.1 i1 i2).places P) (src : v.src P level pos = srcLeft x.1.g level)
    (dst : v.dst P level pos = dstLeft y.1.g level) (column : k = if type then poses P x.1 i1 else poses P y.1 i2) :
    neighbor P type level v (farFig type x.1.g y.1.g % 2 ^ used type level) (used type level) ⟨pos, k⟩ =
      key P (if type then x else y).1 := by
  obtain ⟨first, second⟩ := @places_split P i1 i2 low
  rw [spot_places _ _ low] at places
  cases type with
  | true =>
      simp only [if_true] at column ⊢
      have fig : (srcLeft x.1.g level <<< used true level) ||| farFig true x.1.g y.1.g % 2 ^ used true level = x.1.g :=
        left_or_used x.1.g (level >>> 1)
      simp only [neighbor, far, farPlace, if_true, src, places, first, fig, column]
      exact key_or x i1
  | false =>
      simp only [Bool.false_eq_true, if_false] at column ⊢
      have fig : (dstLeft y.1.g level <<< used false level) ||| farFig false x.1.g y.1.g % 2 ^ used false level = y.1.g :=
        left_or_used y.1.g (level >>> 1 + (level &&& 1))
      simp only [neighbor, far, farPlace, Bool.false_eq_true, if_false, dst, places, second, fig, column]
      exact key_or y i2

/-- The bits on the route of an edge. -/
theorem collect_start (x y : Node P) (level : Nat) : collect type 0 (route x.1.g y.1.g 0 level) 0 0 =
    (farFig type x.1.g y.1.g % 2 ^ used type level, used type level) := by
  have start : used type 0 = 0 := by cases type <;> rfl
  have bits := @collect_route type x.1.g y.1.g 0 level
  rwa [start, Nat.pow_zero, Nat.mod_one, Nat.zero_add] at bits

namespace Models

variable (models : Models t st) (settled : st.Settled (probes P)) {s : Stop}
include models settled

/-- A room with a weight is that of an edge of the node. -/
theorem stop_edge (stop : s ∈ stopsOf type t a) (full : s.value.weight s.room.pos ≠ 0) : ∃ b : Node P,
    neighbor P type s.path.length s.value s.pre s.preLen s.room = key P b.1 ∧
      (settle st.cells (probes P (edge type a b))).map Prod.fst = some (s.path, s.room.pos) ∧
      st.value (probes P) (edge type a b) = some (s.value.weight s.room.pos) := by
  obtain ⟨pres, there, follows, inside⟩ := mem_stopsOf.mp stop
  obtain ⟨hi, hk, pos, fig⟩ := mem_rooms.mp inside
  have cell : st.cells (s.path, s.room.pos) = some (⟨s.value.places P s.room.pos, s.value.src P s.path.length s.room.pos,
      s.value.dst P s.path.length s.room.pos⟩, s.value.weight s.room.pos) := by
    rw [← models.cells]
    simp only [view, there, Option.bind_some, Gbasket.cell, if_neg full]
  obtain ⟨⟨x, y⟩, place⟩ := settled.owner _ _ _ cell
  have probe := settle_mem place
  have value := (settled.value_eq_some probes_apart).mpr (.inl ⟨_, probe, cell⟩)
  have place' := congrArg (Option.map Prod.fst) place
  obtain ⟨level, -, i1, h1, i2, h2, same⟩ := mem_probes probe
  simp only [Prod.mk.injEq, label, Label.mk.injEq] at same
  obtain ⟨⟨path, spotted⟩, places, src, dst⟩ := same
  have depth : s.path.length = level := by rw [path, length_route]
  rw [depth] at src dst fig
  rw [path, collect_start] at pres
  obtain ⟨pre, preLen⟩ := Prod.mk.inj pres
  rw [path] at follows
  have routes := follows_route follows
  obtain ⟨first, second⟩ := @places_split P i1 i2 h2
  have both := places.trans (spot_places x.1 y.1 h2)
  rw [pre, preLen, depth]
  cases type with
  | true =>
      simp only [nearPlace, near, if_true, both, second, dst] at pos fig
      have row : poses P a.1 i2 + s.room.k * P.w = poses P x.1 i1 * P.w + poses P y.1 i2 := pos.symm.trans spotted
      rw [Nat.add_comm] at row
      obtain ⟨column, row⟩ := pos_inj (poses_lt a i2) (poses_lt y i2) row
      obtain rfl : y = a := row_inj (dst_eq routes fig) row.symm
      exact ⟨x, @neighbor_eq P true _ _ _ _ _ _ x y h2 places src dst column, place', value⟩
  | false =>
      simp only [nearPlace, near, Bool.false_eq_true, if_false, both, first, src] at pos fig
      have row : poses P a.1 i1 * P.w + s.room.k = poses P x.1 i1 * P.w + poses P y.1 i2 := pos.symm.trans spotted
      obtain ⟨row, column⟩ := pos_inj hk (poses_lt y i2) row
      obtain rfl : x = a := row_inj (src_eq routes fig) row.symm
      exact ⟨y, @neighbor_eq P false _ _ _ _ _ _ x y h2 places src dst column, place', value⟩

/-- Each edge of the node has such a room. -/
theorem edge_stop {w : BitVec 16} (here : st.value (probes P) (edge type a b) = some w) : ∃ s ∈ stopsOf type t a,
    s.value.weight s.room.pos = w ∧ w ≠ 0 ∧
      neighbor P type s.path.length s.value s.pre s.preLen s.room = key P b.1 := by
  rcases (settled.value_eq_some probes_apart).mp here with ⟨q, hq, cell⟩ | spilled
  · obtain ⟨level, -, i1, h1, i2, h2, rfl⟩ := mem_probes hq
    rw [← models.cells] at cell
    obtain ⟨v, there, held⟩ := Option.bind_eq_some_iff.mp cell
    rw [length_route, Gbasket.cell_eq_some, Gbasket.holds_iff] at held
    obtain ⟨full, labels, weight⟩ := held
    obtain ⟨places, src, dst⟩ := Label.mk.inj labels
    obtain ⟨first, second⟩ := @places_split P i1 i2 h2
    have both := places.trans (spot_places _ _ h2)
    cases type with
    | true =>
        refine ⟨⟨route b.1.g a.1.g 0 level, _, _, v, ⟨_, poses P b.1 i1⟩⟩, mem_stopsOf.mpr
          ⟨(collect_start b a level).symm, there, @route_follows true a.1.g b.1.g 0 0 level, ?_⟩, weight, weight ▸ full, ?_⟩
        · rw [length_route, mem_rooms]
          simp only [nearPlace, near, if_true]
          rw [show v.places P _ = _ from both, second]
          exact ⟨h2, poses_lt b i1, Nat.add_comm _ _, dst⟩
        · rw [length_route]
          exact @neighbor_eq P true v _ _ level i1 i2 b a h2 places src dst rfl
    | false =>
        refine ⟨⟨route a.1.g b.1.g 0 level, _, _, v, ⟨_, poses P b.1 i2⟩⟩, mem_stopsOf.mpr
          ⟨(collect_start a b level).symm, there, @route_follows false a.1.g 0 b.1.g 0 level, ?_⟩, weight, weight ▸ full, ?_⟩
        · rw [length_route, mem_rooms]
          simp only [nearPlace, near, Bool.false_eq_true, if_false]
          rw [show v.places P _ = _ from both, first]
          exact ⟨h1, poses_lt b i2, rfl, src⟩
        · rw [length_route]
          exact @neighbor_eq P false v _ _ level i1 i2 a b h2 places src dst rfl
  · rw [models.spilled] at spilled
    cases spilled

end Models

theorem key_lt (a : Node P) : key P a.1 < P.w * 2 ^ P.f := by
  obtain ⟨row, -, low⟩ := a.2
  rw [key_eq]
  calc a.1.h * 2 ^ P.f + a.1.g < (a.1.h + 1) * 2 ^ P.f := by rw [Nat.add_mul, Nat.one_mul]; omega
    _ ≤ P.w * 2 ^ P.f := Nat.mul_le_mul_right _ row

noncomputable instance : Fintype (Node P) :=
  Fintype.ofInjective (fun a : Node P => (⟨key P a.1, key_lt a⟩ : Fin (P.w * 2 ^ P.f))) fun _ _ same =>
    key_inj.mp (congrArg Fin.val same)

instance (m : Gss.Mapnode) : Decidable (Valid P m) := inferInstanceAs (Decidable (_ ∧ _ ∧ _))

/-- The node with a key, if there is one. -/
def asNode (P : Params) (key : Nat) : Node P := if valid : Valid P (unpack P key) then ⟨_, valid⟩ else nodeOf P 0

theorem asNode_key (a : Node P) : asNode P (key P a.1) = a := by
  have valid : Valid P (unpack P (key P a.1)) := by
    rw [unpack_key a.2]
    exact a.2
  rw [asNode, dif_pos valid]
  exact Subtype.ext (unpack_key a.2)

/-- The node which is pushed for a stop. -/
def Stop.far (P : Params) (type : Bool) (s : Stop) : Node P :=
  asNode P (neighbor P type s.path.length s.value s.pre s.preLen s.room)

section Value

variable (models : Models t st) (settled : st.Settled (probes P))
include models settled

/-- The stops with a weight have the weights of the edges of the node. -/
theorem Models.sum_stops (type : Bool) (a : Node P) :
    ((stopsOf type t a).map fun s => (s.value.weight s.room.pos).setWidth 32).sum =
      ∑ b, ((st.value (probes P) (edge type a b)).getD 0).setWidth 32 := by
  classical
  have nonempty : ((stopsOf type t a).map fun s => (s.value.weight s.room.pos).setWidth 32).sum =
      (((stopsOf type t a).filter fun s => s.value.weight s.room.pos ≠ 0).map
        fun s => (s.value.weight s.room.pos).setWidth 32).sum := by
    have split := List.sum_map_filter_add_sum_map_filter_not (fun s : Stop => s.value.weight s.room.pos ≠ 0)
      (fun s => (s.value.weight s.room.pos).setWidth 32) (stopsOf type t a)
    rw [← split, add_eq_left]
    apply List.sum_eq_zero
    intro x hx
    obtain ⟨s, hs, rfl⟩ := List.mem_map.mp hx
    have empty : s.value.weight s.room.pos = 0 := by simpa using (List.mem_filter.mp hs).2
    rw [empty]
    rfl
  have stop : ∀ s ∈ (stopsOf type t a).filter (fun s => s.value.weight s.room.pos ≠ 0),
      s ∈ stopsOf type t a ∧ s.value.weight s.room.pos ≠ 0 := fun s hs => by
    obtain ⟨hs, full⟩ := List.mem_filter.mp hs
    exact ⟨hs, of_decide_eq_true full⟩
  rw [nonempty]
  refine Counting.sum_support _ (Stop.far P type) _ _ ?_ ?_ ?_
  · have nodup : (stopsOf type t a).Nodup := by
      rw [stopsOf_eq]
      exact (@nodup_stops P type t a 0 a.1.g [] 0 0 rfl).of_map _
    refine (nodup.filter _).map_on fun s hs s' hs' same => ?_
    obtain ⟨hs, full⟩ := stop s hs
    obtain ⟨hs', full'⟩ := stop s' hs'
    obtain ⟨b, pushed, place, -⟩ := models.stop_edge settled hs full
    obtain ⟨b', pushed', place', -⟩ := models.stop_edge settled hs' full'
    rw [Stop.far, pushed, asNode_key, Stop.far, pushed', asNode_key] at same
    subst same
    obtain ⟨paths, positions⟩ := Prod.mk.inj (Option.some.inj (place.symm.trans place'))
    obtain ⟨pres, there, -, inside⟩ := mem_stopsOf.mp hs
    obtain ⟨pres', there', -, inside'⟩ := mem_stopsOf.mp hs'
    obtain ⟨-, hk, pos_eq, -⟩ := mem_rooms.mp inside
    obtain ⟨-, hk', pos_eq', -⟩ := mem_rooms.mp inside'
    obtain ⟨path, pre, preLen, v, room⟩ := s
    obtain ⟨path', pre', preLen', v', room'⟩ := s'
    obtain rfl : path = path' := paths
    obtain rfl : v = v' := Option.some.inj (there.symm.trans there')
    obtain ⟨rfl, rfl⟩ := Prod.mk.inj (pres.trans pres'.symm)
    obtain ⟨pos, k⟩ := room
    obtain ⟨pos', k'⟩ := room'
    obtain rfl : pos = pos' := positions
    have cells := pos_eq.symm.trans pos_eq'
    have columns : k = k' := by
      cases type with
      | true =>
          simp only [cell, if_true, Nat.add_comm _ (_ * P.w)] at cells
          exact (pos_inj (poses_lt a _) (poses_lt a _) cells).1
      | false =>
          simp only [cell, Bool.false_eq_true, if_false] at cells
          exact (pos_inj hk hk' cells).2
    rw [columns]
  · intro s hs
    obtain ⟨hs, full⟩ := stop s hs
    obtain ⟨b, pushed, -, value⟩ := models.stop_edge settled hs full
    rw [Stop.far, pushed, asNode_key, value, Option.getD_some]
  · intro b away
    cases here : st.value (probes P) (edge type a b) with
    | none => rfl
    | some w =>
        obtain ⟨s, hs, rfl, full, pushed⟩ := models.edge_stop settled here
        refine absurd (List.mem_map.mpr ⟨s, List.mem_filter.mpr ⟨hs, decide_eq_true full⟩, ?_⟩) away
        rw [Stop.far, pushed, asNode_key]

end Value

/-- The value of a node is the sum over its edges of their `unsigned short` totals, as an `int`. -/
theorem nodeValueQuery_sum {hash : String → UInt64} {items : List (String × String × Int)}
    (done : inserts P hash items = some t) (nonzero : Nonzero P hash items) (s1 : String) (type : Bool) :
    nodeValueQuery P type hash t s1 =
      (∑ b, (total P hash items (edge type (nodeOf P (hash s1)) b)).setWidth 32 : BitVec 32).toInt := by
  have sum := (models_inserts done nonzero).sum_stops (settled_table items) type (nodeOf P (hash s1))
  simp only [table_value] at sum
  rw [← sum]
  exact congrArg BitVec.toInt getNodeValue_eq

theorem nodeValueQuery_sum_tiny : ∃ t, inserts tiny firstLetter tinyItems = some t ∧
    nodeValueQuery tiny true firstLetter t "c" = (∑ b, (total tiny firstLetter tinyItems
      (edge true (nodeOf tiny (firstLetter "c")) b)).setWidth 32 : BitVec 32).toInt :=
  ⟨_, rfl, nodeValueQuery_sum rfl tinyItems_nonzero "c" true⟩

end CuckooGraph.Auxo
