import CuckooGraph.Auxo.NodeQueries

/-! # Neighbours and reachability

`sucessorQuery` returns the neighbours of a node, and a ghost for each empty room which
looks like one of its edges. `reachQuery` searches over both from both ends: it misses no
path, and it only finds one which is not there if there is a ghost on the way.
-/

namespace CuckooGraph.Auxo

open Probing BasketNode

variable {P : Params} {type : Bool} {t : BasketNode} {hash : String → UInt64} {items : List (String × String × Int)}

/-- What is pushed for an empty room on a way on which the fingerprint of the node is used up. -/
def Ghost (P : Params) (type : Bool) (t : BasketNode) (a : Node P) (x : Nat) : Prop :=
  ∃ path v k, t.matrix path = some v ∧ Follows type a.1.g 0 path ∧ nearLeft type a.1.g path.length = 0 ∧ k < P.w ∧
    v.weight (cell P type (poses P a.1 0) k) = 0 ∧
    x = (calHash P (collect type 0 path 0 0).1 0 k <<< P.f) ||| (collect type 0 path 0 0).1

section Neighbours

/-- The fields of an empty room are 0. -/
theorem Gbasket.fresh_fields {v : Gbasket} {level pos : Nat} (fresh : v.Fresh P level) (empty : v.weight pos = 0) :
    near P type level v pos = 0 ∧ far P type level v pos = 0 ∧ nearPlace P type (v.places P pos) = 0 ∧
      farPlace P type (v.places P pos) = 0 := by
  obtain ⟨src, dst, places⟩ := fresh pos empty
  cases type <;> simp [near, far, nearPlace, farPlace, src, dst, places]

/-- The empty rooms a query stops at. -/
theorem ghost_iff {st : Store (Node P × Node P) Spot Label (BitVec 16)} (models : Models t st) {a : Node P} {x : Nat} :
    (∃ s ∈ stopsOf type t a, s.value.weight s.room.pos = 0 ∧
      neighbor P type s.path.length s.value s.pre s.preLen s.room = x) ↔ Ghost P type t a x := by
  have pushed : ∀ {v : Gbasket} {level pos k pre preLen : Nat}, v.Fresh P level → v.weight pos = 0 →
      neighbor P type level v pre preLen ⟨pos, k⟩ = (calHash P pre 0 k <<< P.f) ||| pre := by
    intro v level pos k pre preLen fresh empty
    obtain ⟨-, far, -, farPlace⟩ := @Gbasket.fresh_fields P type v level pos fresh empty
    rw [neighbor, far, farPlace, Nat.zero_shiftLeft, Nat.zero_or]
  constructor
  · rintro ⟨s, stop, empty, rfl⟩
    obtain ⟨pres, there, follows, inside⟩ := mem_stopsOf.mp stop
    obtain ⟨-, hk, pos, fig⟩ := mem_rooms.mp inside
    have fresh := models.fresh s.path s.value there
    obtain ⟨near, -, nearPlace, -⟩ := @Gbasket.fresh_fields P type s.value _ _ fresh empty
    rw [nearPlace] at pos
    refine ⟨s.path, s.value, s.room.k, there, follows, fig.symm.trans near, hk, pos ▸ empty, ?_⟩
    rw [← pres, pushed fresh empty]
  · rintro ⟨path, v, k, there, follows, left, hk, empty, rfl⟩
    have fresh := models.fresh path v there
    obtain ⟨near, -, nearPlace, -⟩ := @Gbasket.fresh_fields P type v path.length _ fresh empty
    refine ⟨⟨path, _, (collect type 0 path 0 0).2, v, ⟨cell P type (poses P a.1 0) k, k⟩⟩,
      mem_stopsOf.mpr ⟨rfl, there, follows, mem_rooms.mpr ?_⟩, empty, pushed fresh empty⟩
    simp only [nearPlace, near, left]
    exact ⟨P.r_pos, hk, trivial, trivial⟩

/-- An edge is in the table as soon as it has been inserted. -/
theorem table_some (e : Node P × Node P) :
    (∃ w, (table P hash items).value (probes P) e = some w) ↔ ∃ i ∈ items, (item P hash i).1 = e := by
  have value := Store.value_addAll probes_apart (items.map (item P hash)) e
  rw [table, value, List.map_map]
  split
  · rename_i here
    obtain ⟨i, hi, same⟩ := List.mem_map.mp here
    exact ⟨fun _ => ⟨i, hi, same⟩, fun _ => ⟨_, rfl⟩⟩
  · rename_i absent
    constructor
    · rintro ⟨w, here⟩
      cases here
    · rintro ⟨i, hi, same⟩
      exact absurd (List.mem_map.mpr ⟨i, hi, same⟩) absent

theorem neis_eq (a : Node P) : neis P t type (key P a.1) =
    (stopsOf type t a).map fun s => neighbor P type s.path.length s.value s.pre s.preLen s.room := by
  rw [neis, unpack_key a.2]
  exact sucessorQuery_eq rfl

/-- An inserted edge is seen from either end. -/
theorem Models.seen (models : Models t (table P hash items)) {i : String × String × Int} (hi : i ∈ items) {a b : Node P}
    (same : (item P hash i).1 = edge type a b) : key P b.1 ∈ neis P t type (key P a.1) := by
  obtain ⟨w, value⟩ := (table_some _).mpr ⟨i, hi, same⟩
  obtain ⟨s, stop, -, -, pushed⟩ := models.edge_stop (settled_table items) value
  rw [neis_eq]
  exact List.mem_map.mpr ⟨s, stop, pushed⟩

/-- What is seen and is no neighbour is a ghost. -/
theorem Models.neighbor_or_ghost (models : Models t (table P hash items)) {a : Node P} {x : Nat}
    (seen : x ∈ neis P t type (key P a.1)) :
    (∃ i ∈ items, ∃ b, (item P hash i).1 = edge type a b ∧ x = key P b.1) ∨ Ghost P type t a x := by
  rw [neis_eq] at seen
  obtain ⟨s, stop, pushed⟩ := List.mem_map.mp seen
  by_cases empty : s.value.weight s.room.pos = 0
  · exact .inr ((ghost_iff models).mp ⟨s, stop, empty, pushed⟩)
  · obtain ⟨b, other, -, value⟩ := models.stop_edge (settled_table items) stop empty
    obtain ⟨i, hi, same⟩ := (table_some _).mp ⟨_, value⟩
    exact .inl ⟨i, hi, b, same, pushed.symm.trans other⟩

/-- The neighbours of a node are pushed, and its ghosts, and nothing else. -/
theorem sucessorQuery_exact (done : inserts P hash items = some t) (nonzero : Nonzero P hash items) (a : Node P) (x : Nat) :
    x ∈ neis P t type (key P a.1) ↔
      (∃ i ∈ items, ∃ b, (item P hash i).1 = edge type a b ∧ x = key P b.1) ∨ Ghost P type t a x := by
  have models := models_inserts done nonzero
  constructor
  · exact models.neighbor_or_ghost
  · rintro (⟨i, hi, b, same, rfl⟩ | ghost)
    · exact models.seen hi same
    · obtain ⟨s, stop, -, pushed⟩ := (ghost_iff models).mpr ghost
      rw [neis_eq]
      exact List.mem_map.mpr ⟨s, stop, pushed⟩

theorem sucessorQuery_exact_tiny : ∃ t, inserts tiny firstLetter tinyItems = some t ∧
    (60 ∈ neis tiny t false (key tiny (nodeOf tiny (firstLetter "a")).1) ↔
      (∃ i ∈ tinyItems, ∃ b, (item tiny firstLetter i).1 = edge false (nodeOf tiny (firstLetter "a")) b ∧ 60 = key tiny b.1) ∨
        Ghost tiny false t (nodeOf tiny (firstLetter "a")) 60) :=
  ⟨_, rfl, sucessorQuery_exact rfl tinyItems_nonzero (nodeOf tiny (firstLetter "a")) 60⟩

/-- A fingerprint with the highest bit set is not used up. -/
theorem Models.no_ghost {st : Store (Node P × Node P) Spot Label (BitVec 16)} (models : Models t st) {a : Node P} {x : Nat}
    (high : 2 ^ (P.f - 1) ≤ a.1.g) : ¬ Ghost P type t a x := by
  rintro ⟨path, v, k, there, -, left, -⟩
  have low := models.low path v there
  have some := P.f_pos
  simp only [depth] at low
  have gone : ∀ n ≤ P.f - 1, a.1.g >>> n ≠ 0 := by
    intro n le zero
    rw [Nat.shiftRight_eq_div_pow] at zero
    have wide : 2 ^ n ≤ 2 ^ (P.f - 1) := Nat.pow_le_pow_right (by decide) le
    exact (Nat.div_pos (wide.trans high) (Nat.two_pow_pos n)).ne' zero
  cases type with
  | true =>
      apply gone (path.length >>> 1 + (path.length &&& 1)) _ left
      rw [Nat.shiftRight_one, Nat.and_one_is_mod]
      omega
  | false =>
      apply gone (path.length >>> 1) _ left
      rw [Nat.shiftRight_one]
      omega

end Neighbours

section Range

theorem collect_lt {level pre preLen : Nat} {path : List Bool} (fits : pre < 2 ^ preLen) (start : preLen = used type level) :
    (collect type level path pre preLen).1 < 2 ^ used type (level + path.length) ∧
      (collect type level path pre preLen).2 = used type (level + path.length) := by
  induction path generalizing level pre preLen with
  | nil => exact ⟨start ▸ fits, start⟩
  | cons way path ih =>
      have shift : level + (way :: path).length = level + 1 + path.length := by
        rw [List.length_cons]
        omega
      rw [collect, shift]
      by_cases mine : chooses type level = true
      · rw [if_pos mine]
        exact ih fits (by rw [used_succ, if_pos mine, start])
      · rw [if_neg mine]
        have wider : 2 ^ preLen ≤ 2 ^ (preLen + 1) := Nat.pow_le_pow_right (by decide) (Nat.le_succ preLen)
        refine ih ?_ (by rw [used_succ, if_neg mine, start])
        cases way with
        | true =>
            apply Nat.or_lt_two_pow (fits.trans_le wider)
            rw [Nat.one_shiftLeft]
            exact Nat.pow_lt_pow_right (by decide) (Nat.lt_succ_self preLen)
        | false => exact fits.trans_le wider

/-- What is read of the other fingerprint and what has been collected make up `f` bits. -/
theorem far_lt {level pos : Nat} {v : Gbasket} (inside : level < depth P) :
    far P type level v pos < 2 ^ (P.f - used type level) ∧ used type level ≤ P.f := by
  have some := P.f_pos
  simp only [depth] at inside
  cases type with
  | true =>
      refine ⟨Packed.get_lt, ?_⟩
      simp only [used, if_true, Nat.shiftRight_one]
      omega
  | false =>
      have size : dstFigSize P level = P.f - used false level := Nat.sub_sub _ _ _
      refine ⟨size ▸ Packed.get_lt, ?_⟩
      simp only [used, Bool.false_eq_true, if_false, Nat.shiftRight_one, Nat.and_one_is_mod]
      omega

/-- What is pushed for any number is below `w * 2^f`. -/
theorem Models.neis_lt {st : Store (Node P × Node P) Spot Label (BitVec 16)} (models : Models t st) {u x : Nat}
    (pushed : x ∈ neis P t type u) : x < P.w * 2 ^ P.f := by
  obtain ⟨m, all⟩ : ∃ m, neis P t type u = sucessorQuery P type m t 0 (nearLeft type m.g 0) 0 0 :=
    ⟨unpack P u, by cases type <;> rfl⟩
  have none : ([] : List Bool).length = 0 := rfl
  rw [all, @sucessorQuery_eq P type m t _ 0 0 0 [] none] at pushed
  obtain ⟨s, stop, rfl⟩ := List.mem_map.mp pushed
  obtain ⟨rest, path, pres, there, -, inside⟩ := (mem_stops none).mp stop
  obtain rfl : s.path = rest := path
  have low := models.low _ _ there
  obtain ⟨-, column, -, -⟩ := mem_rooms.mp inside
  have start : used type 0 = 0 := by cases type <;> rfl
  obtain ⟨lowBits, length⟩ := @collect_lt type 0 0 0 s.path (by decide) start.symm
  rw [← pres, Nat.zero_add] at lowBits length
  simp only at lowBits length
  obtain ⟨figs, fits⟩ := @far_lt P type s.path.length s.room.pos s.value low
  have fig : (far P type s.path.length s.value s.room.pos <<< s.preLen) ||| s.pre < 2 ^ P.f := by
    apply Nat.or_lt_two_pow
    · rw [length, Nat.shiftLeft_eq]
      calc _ < 2 ^ (P.f - used type s.path.length) * 2 ^ used type s.path.length :=
            Nat.mul_lt_mul_of_pos_right figs (Nat.two_pow_pos _)
        _ = 2 ^ P.f := by rw [← Nat.pow_add, Nat.sub_add_cancel fits]
    · exact lowBits.trans_le (Nat.pow_le_pow_right (by decide) fits)
  have row := fun fig => (@calHash_spec P fig (farPlace P type (s.value.places P s.room.pos)) _ column).1
  simp only [neighbor]
  rw [← Nat.shiftLeft_add_eq_or_of_lt fig, Nat.shiftLeft_eq]
  refine (Nat.add_lt_add_left fig _).trans_le ?_
  rw [← Nat.succ_mul]
  exact Nat.mul_le_mul_right _ (row _)

end Range

section Reach

/-- The inserted edges between the numbers of their compressed nodes. -/
def Inserted (P : Params) (hash : String → UInt64) (items : List (String × String × Int)) (u v : Nat) : Prop :=
  ∃ i ∈ items, u = key P (node P (hash i.1)) ∧ v = key P (node P (hash i.2.1))

/-- A path of inserted edges, none of which is a loop in the sketch. -/
def Path (P : Params) (hash : String → UInt64) (items : List (String × String × Int)) (s1 s2 : String) : Prop :=
  Relation.TransGen (fun u v => Inserted P hash items u v ∧ u ≠ v) (key P (node P (hash s1))) (key P (node P (hash s2)))

/-- No ghost comes up for the nodes on the ways from `s1`, and on those to `s2`. -/
def Unhaunted (P : Params) (hash : String → UInt64) (items : List (String × String × Int)) (t : BasketNode) (s1 s2 : String) :
    Prop :=
  (∀ (a : Node P) x, Relation.ReflTransGen (Inserted P hash items) (key P (node P (hash s1))) (key P a.1) →
      ¬ Ghost P false t a x) ∧
    ∀ (a : Node P) x, Relation.ReflTransGen (Inserted P hash items) (key P a.1) (key P (node P (hash s2))) →
      ¬ Ghost P true t a x

theorem inserted_iff {u v : Nat} : Inserted P hash items u v ↔
    ∃ i ∈ items, ∃ a b : Node P, (item P hash i).1 = (a, b) ∧ u = key P a.1 ∧ v = key P b.1 := by
  constructor
  · rintro ⟨i, hi, rfl, rfl⟩
    exact ⟨i, hi, nodeOf P (hash i.1), nodeOf P (hash i.2.1), rfl, rfl, rfl⟩
  · rintro ⟨i, hi, a, b, same, rfl, rfl⟩
    obtain ⟨rfl, rfl⟩ := Prod.mk.inj same
    exact ⟨i, hi, rfl, rfl⟩

/-- `reachQuery` always returns. It is right about a path of inserted edges, and for two names
    about there being none unless a ghost comes up. -/
theorem reachQuery_path (done : inserts P hash items = some t) (nonzero : Nonzero P hash items) (s1 s2 : String)
    {fuel : Nat} (enough : P.w * 2 ^ P.f < fuel) :
    ∃ answer, reachQuery P hash t s1 s2 fuel = some answer ∧ (s1 = s2 → answer = true) ∧
      (Path P hash items s1 s2 → answer = true) ∧
      (s1 ≠ s2 → Unhaunted P hash items t s1 s2 → answer = true → Path P hash items s1 s2) := by
  by_cases other : s1 = s2
  · exact ⟨true, by rw [reachQuery, if_pos other], fun _ => rfl, fun _ => rfl, fun apart => absurd other apart⟩
  have models := models_inserts done nonzero
  have finite : ∀ z, Relation.ReflTransGen (Bidirectional.Sees (neis P t false)) (key P (nodeOf P (hash s1)).1) z →
      z ∈ List.range (P.w * 2 ^ P.f) := by
    intro z path
    rw [List.mem_range]
    cases path with
    | refl => exact key_lt _
    | tail _ seen => exact models.neis_lt seen
  have all1 : ∀ u v, Inserted P hash items u v → v ∈ neis P t false u := by
    intro u v edge
    obtain ⟨i, hi, a, b, same, rfl, rfl⟩ := inserted_iff.mp edge
    exact models.seen hi same
  have all2 : ∀ u v, Inserted P hash items u v → u ∈ neis P t true v := by
    intro u v edge
    obtain ⟨i, hi, a, b, same, rfl, rfl⟩ := inserted_iff.mp edge
    exact models.seen hi same
  obtain ⟨answer, found, complete, sound⟩ := @Bidirectional.meet_path Nat _ (neis P t false) (neis P t true)
    (key P (node P (hash s1))) (key P (node P (hash s2))) (Inserted P hash items) _ finite fuel
    (by rwa [List.length_range]) all1 all2
  refine ⟨answer, ?_, fun same => absurd same other, complete,
    fun _ unhaunted => sound (fun u path v seen => ?_) fun v path u seen => ?_⟩
  · rw [reachQuery, if_neg other]
    exact found
  · obtain ⟨a, rfl⟩ : ∃ a : Node P, u = key P a.1 := by
      rcases Relation.ReflTransGen.cases_tail path with rfl | ⟨_, _, i, hi, _, rfl⟩
      · exact ⟨nodeOf P (hash s1), rfl⟩
      · exact ⟨nodeOf P (hash i.2.1), rfl⟩
    rcases models.neighbor_or_ghost seen with ⟨i, hi, b, same, rfl⟩ | ghost
    · exact inserted_iff.mpr ⟨i, hi, a, b, same, rfl, rfl⟩
    · exact absurd ghost (unhaunted.1 a v path)
  · obtain ⟨b, rfl⟩ : ∃ b : Node P, v = key P b.1 := by
      rcases Relation.ReflTransGen.cases_head path with rfl | ⟨_, ⟨i, hi, rfl, _⟩, _⟩
      · exact ⟨nodeOf P (hash s2), rfl⟩
      · exact ⟨nodeOf P (hash i.1), rfl⟩
    rcases models.neighbor_or_ghost seen with ⟨i, hi, a, same, rfl⟩ | ghost
    · exact inserted_iff.mpr ⟨i, hi, a, b, same, rfl, rfl⟩
    · exact absurd ghost (unhaunted.2 b u path)

/-- No ghost comes up where all nodes have the highest bit of their fingerprints set. -/
theorem Models.unhaunted {st : Store (Node P × Node P) Spot Label (BitVec 16)} (models : Models t st) {s1 s2 : String}
    (high : ∀ s ∈ s1 :: s2 :: items.flatMap (fun i => [i.1, i.2.1]), 2 ^ (P.f - 1) ≤ (node P (hash s)).g) :
    Unhaunted P hash items t s1 s2 := by
  have mine : ∀ {a : Node P} {s : String}, s ∈ s1 :: s2 :: items.flatMap (fun i => [i.1, i.2.1]) →
      key P a.1 = key P (node P (hash s)) → 2 ^ (P.f - 1) ≤ a.1.g := by
    intro a s hs same
    obtain rfl : a = nodeOf P (hash s) := key_inj.mp same
    exact high s hs
  constructor
  · intro a x path
    apply models.no_ghost
    rcases Relation.ReflTransGen.cases_tail path with same | ⟨_, _, i, hi, _, same⟩
    · exact mine (by simp) same
    · exact mine (s := i.2.1) (List.mem_cons_of_mem _ (List.mem_cons_of_mem _ (List.mem_flatMap.mpr ⟨i, hi, by simp⟩))) same
  · intro a x path
    apply models.no_ghost
    rcases Relation.ReflTransGen.cases_head path with same | ⟨_, ⟨i, hi, same, _⟩, _⟩
    · exact mine (s := s2) (by simp) same
    · exact mine (s := i.1) (List.mem_cons_of_mem _ (List.mem_cons_of_mem _ (List.mem_flatMap.mpr ⟨i, hi, by simp⟩))) same

theorem reachQuery_path_tiny : ∃ t, inserts tiny firstLetter tinyItems = some t ∧
    ∃ answer, reachQuery tiny firstLetter t "a" "c" 65 = some answer ∧
      (answer = true ↔ Path tiny firstLetter tinyItems "a" "c") := by
  refine ⟨_, rfl, ?_⟩
  obtain ⟨answer, found, -, complete, sound⟩ := @reachQuery_path tiny _ firstLetter tinyItems rfl tinyItems_nonzero
    "a" "c" 65 (by decide)
  have models := @models_inserts tiny firstLetter tinyItems _ rfl tinyItems_nonzero
  exact ⟨answer, found, sound (by decide) (models.unhaunted (by decide)), complete⟩

end Reach

end CuckooGraph.Auxo
