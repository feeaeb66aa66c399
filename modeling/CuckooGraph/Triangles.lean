import CuckooGraph.Counting
import CuckooGraph.Unweighted.Successors
import CuckooGraph.WindBell.Delete
import CuckooGraph.WindBell.Neighbors

/-! # Triangles

A graph and a Wind-Bell matrix count the triangles through an id in three ways:
two steps forward and a query for the closing edge, or a step forward, a step
backward and a query for the edge between.
-/

namespace CuckooGraph

open TwoLayer

/-- `src -> x -> y -> src`, through three different ids. -/
def Triangle (es : List Edge) (src x y : Key) : Prop :=
  x ≠ src ∧ y ≠ src ∧ x ≠ y ∧ ⟨src, x⟩ ∈ es ∧ ⟨x, y⟩ ∈ es ∧ ⟨y, src⟩ ∈ es

/-- The number of triangles, as pairs of the other two ids. -/
noncomputable def triangles (es : List Edge) (src : Key) : Nat := {p : Key × Key | Triangle es src p.1 p.2}.ncard

/-- `query_triangles`. The arrays are `successor1` and `precursor1`. -/
def Holemerge.queryTriangles (E : Env) (m : Memory Key) (h : Holemerge Key) (src : Key)
    (successor1 precursor1 : Buffer) : Nat :=
  let (successor1, sum) := h.querySuccessor E m src successor1 0
  ((List.range sum).foldl (fun (s : Buffer × Nat) i =>
    let (precursor1, sum2) := h.querySuccessor E m (successor1 i) s.1 0
    (precursor1, (List.range sum2).foldl (fun cnt j =>
      if precursor1 j ≠ successor1 i ∧ successor1 i ≠ src ∧ precursor1 j ≠ src ∧
          h.query E m ⟨precursor1 j, src⟩ ≠ 0 then cnt + 1 else cnt) s.2)) (precursor1, 0)).2

section Loops

variable (list before : Key → Buffer → Nat → Option (Buffer × Nat)) (ask : Edge → Option Bool) (src : Key)

/-- The loops of `query_triangles` of a matrix, whatever lists ids and tells which edges there are. -/
def trianglesBetween (successor precursor : Buffer) : Option Nat := do
  let (successor, sum1) ← list src successor 0
  let (precursor, sum2) ← before src precursor 0
  (List.range sum1).foldlM (fun cnt i => (List.range sum2).foldlM (fun cnt j =>
    if successor i ≠ src ∧ precursor j ≠ src ∧ precursor j ≠ successor i then do
      let found ← ask ⟨successor i, precursor j⟩
      return if found then cnt + 1 else cnt
    else return cnt) cnt) 0

/-- The loops of `query_triangle_new`. -/
def trianglesForward (successor precursor : Buffer) : Option Nat := do
  let (successor, sum) ← list src successor 0
  let (_, cnt) ← (List.range sum).foldlM (fun (s : Buffer × Nat) i => do
    let (precursor, sum2) ← list (successor i) s.1 0
    let cnt ← (List.range sum2).foldlM (fun cnt j =>
      if precursor j ≠ successor i ∧ successor i ≠ src ∧ precursor j ≠ src then do
        let found ← ask ⟨precursor j, src⟩
        return if found then cnt + 1 else cnt
      else return cnt) s.2
    return (precursor, cnt)) (precursor, 0)
  return cnt

end Loops

namespace WindBell.Chandelier

/-- `query_triangles`: a step forward and a step backward. -/
def queryTriangles (E : Env) (c : Chandelier Unit) (src : Key) (successor precursor : Buffer) : Option Nat :=
  trianglesBetween (c.querySuccessor E) (c.queryPrecursor E) (c.queryEdge E) src successor precursor

/-- `query_triangle_new`: two steps forward. -/
def queryTriangleNew (E : Env) (c : Chandelier Unit) (src : Key) (successor precursor : Buffer) : Option Nat :=
  trianglesForward (c.querySuccessor E) (c.queryEdge E) src successor precursor

end WindBell.Chandelier

section Counted

/-- A sum over what was written is one over the ids. -/
theorem Buffer.sum_write (buf : Buffer) (ids : List Key) (g : Key → Nat) :
    (((List.range (buf.write 0 ids).2).map fun i => g ((buf.write 0 ids).1 i)).sum) = (ids.map g).sum := by
  obtain ⟨count, slice, -⟩ := Buffer.write_spec buf 0 ids
  rw [Buffer.slice] at slice
  simp only [Nat.zero_add] at slice
  rw [count]
  conv_rhs => rw [← slice]
  rw [List.map_map]
  rfl

variable {E : Env} {m : Memory Key} {h : Holemerge Key} {succ pred : Key → List Key} {es : List Edge} {src : Key}

/-- The loops over successors of successors, whatever lists them and tells which edges close. -/
theorem forward_loops {list : Key → Buffer → Nat → Buffer × Nat} {closes : Key → Prop} [DecidablePred closes]
    (listed : ∀ x buf U, list x buf U = buf.write U (succ x)) (b1 b2 : Buffer) :
    ((List.range (list src b1 0).2).foldl (fun (s : Buffer × Nat) i =>
      ((list ((list src b1 0).1 i) s.1 0).1, (List.range (list ((list src b1 0).1 i) s.1 0).2).foldl (fun cnt j =>
        if (list ((list src b1 0).1 i) s.1 0).1 j ≠ (list src b1 0).1 i ∧ (list src b1 0).1 i ≠ src ∧
            (list ((list src b1 0).1 i) s.1 0).1 j ≠ src ∧ closes ((list ((list src b1 0).1 i) s.1 0).1 j)
        then cnt + 1 else cnt) s.2)) (b2, 0)).2 =
      ((succ src).map fun x => ((succ x).map fun y =>
        if y ≠ x ∧ x ≠ src ∧ y ≠ src ∧ closes y then 1 else 0).sum).sum := by
  simp only [listed]
  refine (Counting.foldl_count Prod.snd _ (fun i => ((succ ((b1.write 0 (succ src)).1 i)).map fun y =>
    if y ≠ (b1.write 0 (succ src)).1 i ∧ (b1.write 0 (succ src)).1 i ≠ src ∧ y ≠ src ∧
      closes y then 1 else 0).sum) _ _ fun i _ s => ?_).trans ?_
  · refine (Counting.foldl_count id _ _ _ _ fun j _ cnt => ?_).trans
      (congrArg _ (Buffer.sum_write s.1 (succ ((b1.write 0 (succ src)).1 i)) _))
    dsimp only [id]
    split <;> rfl
  · rw [Nat.zero_add]
    exact Buffer.sum_write b1 (succ src) fun x => ((succ x).map fun y =>
      if y ≠ x ∧ x ≠ src ∧ y ≠ src ∧ closes y then 1 else 0).sum

theorem Holemerge.queryTriangles_eq (listed : ∀ x buf U, h.querySuccessor E m x buf U = buf.write U (succ x))
    (b1 b2 : Buffer) : h.queryTriangles E m src b1 b2 =
      ((succ src).map fun x => ((succ x).map fun y =>
        if y ≠ x ∧ x ≠ src ∧ y ≠ src ∧ h.query E m ⟨y, src⟩ ≠ 0 then 1 else 0).sum).sum :=
  @forward_loops succ src (h.querySuccessor E m) (fun y => h.query E m ⟨y, src⟩ ≠ 0) _ listed b1 b2

variable {list before : Key → Buffer → Nat → Option (Buffer × Nat)} {ask : Edge → Option Bool}

/-- The inner loop, over ids that were written to an array. -/
theorem count_edges (asked : ∀ e, ask e = some (decide (e ∈ es))) (test : Key → Prop) [DecidablePred test]
    (edge : Key → Edge) (buf : Buffer) (ids : List Key) (cnt : Nat) :
    ((List.range (buf.write 0 ids).2).foldlM (fun cnt j =>
      if test ((buf.write 0 ids).1 j) then do
        let found ← ask (edge ((buf.write 0 ids).1 j))
        return if found then cnt + 1 else cnt
      else return cnt) cnt : Option Nat) =
      some (cnt + (ids.map fun y => if test y ∧ edge y ∈ es then 1 else 0).sum) := by
  obtain ⟨cnt', looped, total⟩ := Counting.foldlM_count id (fun cnt j =>
      if test ((buf.write 0 ids).1 j) then do
        let found ← ask (edge ((buf.write 0 ids).1 j))
        return if found then cnt + 1 else cnt
      else return cnt)
    (fun j => if test ((buf.write 0 ids).1 j) ∧ edge ((buf.write 0 ids).1 j) ∈ es then 1 else 0)
    (List.range (buf.write 0 ids).2) cnt fun j _ cnt => by
      by_cases passes : test ((buf.write 0 ids).1 j)
      · by_cases member : edge ((buf.write 0 ids).1 j) ∈ es <;> simp [passes, asked, member]
      · simp [passes]
  rw [looped]
  exact congrArg some (total.trans (congrArg _ (Buffer.sum_write buf ids fun y =>
    if test y ∧ edge y ∈ es then 1 else 0)))

theorem trianglesBetween_eq (asked : ∀ e, ask e = some (decide (e ∈ es)))
    (listed : ∀ x buf U, list x buf U = some (buf.write U (succ x)))
    (earlier : ∀ x buf U, before x buf U = some (buf.write U (pred x))) (b1 b2 : Buffer) :
    trianglesBetween list before ask src b1 b2 = some ((succ src).map fun x => ((pred src).map fun y =>
      if (x ≠ src ∧ y ≠ src ∧ y ≠ x) ∧ ⟨x, y⟩ ∈ es then 1 else 0).sum).sum := by
  simp only [trianglesBetween, listed, earlier, Option.bind_eq_bind, Option.bind_some]
  obtain ⟨cnt, looped, total⟩ := Counting.foldlM_count id (fun cnt i =>
      (List.range (b2.write 0 (pred src)).2).foldlM (fun cnt j =>
        if (b1.write 0 (succ src)).1 i ≠ src ∧ (b2.write 0 (pred src)).1 j ≠ src ∧
            (b2.write 0 (pred src)).1 j ≠ (b1.write 0 (succ src)).1 i then do
          let found ← ask ⟨(b1.write 0 (succ src)).1 i, (b2.write 0 (pred src)).1 j⟩
          return if found then cnt + 1 else cnt
        else return cnt) cnt)
    _ (List.range (b1.write 0 (succ src)).2) 0 fun i _ cnt => ⟨_, count_edges asked
      (fun y => (b1.write 0 (succ src)).1 i ≠ src ∧ y ≠ src ∧ y ≠ (b1.write 0 (succ src)).1 i)
      (fun y => ⟨(b1.write 0 (succ src)).1 i, y⟩) b2 (pred src) cnt, rfl⟩
  refine looped.trans (congrArg some ?_)
  refine total.trans ?_
  rw [id, Nat.zero_add]
  exact Buffer.sum_write b1 (succ src) fun x => ((pred src).map fun y =>
    if (x ≠ src ∧ y ≠ src ∧ y ≠ x) ∧ ⟨x, y⟩ ∈ es then 1 else 0).sum

theorem trianglesForward_eq (asked : ∀ e, ask e = some (decide (e ∈ es)))
    (listed : ∀ x buf U, list x buf U = some (buf.write U (succ x))) (b1 b2 : Buffer) :
    trianglesForward list ask src b1 b2 = some ((succ src).map fun x => ((succ x).map fun y =>
      if (y ≠ x ∧ x ≠ src ∧ y ≠ src) ∧ ⟨y, src⟩ ∈ es then 1 else 0).sum).sum := by
  simp only [trianglesForward, listed, Option.bind_eq_bind, Option.bind_some]
  obtain ⟨s, looped, total⟩ := Counting.foldlM_count Prod.snd (fun (s : Buffer × Nat) i =>
      ((List.range (s.1.write 0 (succ ((b1.write 0 (succ src)).1 i))).2).foldlM (fun cnt j =>
        if (s.1.write 0 (succ ((b1.write 0 (succ src)).1 i))).1 j ≠ (b1.write 0 (succ src)).1 i ∧
            (b1.write 0 (succ src)).1 i ≠ src ∧
            (s.1.write 0 (succ ((b1.write 0 (succ src)).1 i))).1 j ≠ src then do
          let found ← ask ⟨(s.1.write 0 (succ ((b1.write 0 (succ src)).1 i))).1 j, src⟩
          return if found then cnt + 1 else cnt
        else return cnt) s.2).bind fun cnt =>
          some ((s.1.write 0 (succ ((b1.write 0 (succ src)).1 i))).1, cnt))
    (fun i => ((succ ((b1.write 0 (succ src)).1 i)).map fun y =>
      if (y ≠ (b1.write 0 (succ src)).1 i ∧ (b1.write 0 (succ src)).1 i ≠ src ∧ y ≠ src) ∧
        ⟨y, src⟩ ∈ es then 1 else 0).sum)
    (List.range (b1.write 0 (succ src)).2) (b2, 0) fun i _ s => by
      have inner := count_edges asked
        (fun y => y ≠ (b1.write 0 (succ src)).1 i ∧ (b1.write 0 (succ src)).1 i ≠ src ∧ y ≠ src)
        (fun y => ⟨y, src⟩) s.1 (succ ((b1.write 0 (succ src)).1 i)) s.2
      exact ⟨_, (congrArg (Option.bind · _) inner).trans rfl, rfl⟩
  refine (congrArg (Option.bind · _) looped).trans (congrArg some ?_)
  refine total.trans ?_
  rw [Nat.zero_add]
  exact Buffer.sum_write b1 (succ src) fun x => ((succ x).map fun y =>
    if (y ≠ x ∧ x ≠ src ∧ y ≠ src) ∧ ⟨y, src⟩ ∈ es then 1 else 0).sum

end Counted

section Counts

variable {E : Env} {m : Memory Key} {h : Holemerge Key} {es : List Edge} {src : Key}

/-- A counter that goes two steps forward. -/
theorem forward_triangles {succ : Key → List Key} (nodup : ∀ x, (succ x).Nodup)
    (stored : ∀ x d, d ∈ succ x ↔ ⟨x, d⟩ ∈ es) {test : Key → Key → Prop} [∀ x y, Decidable (test x y)]
    (closes : ∀ x y, ⟨src, x⟩ ∈ es → ⟨x, y⟩ ∈ es →
      (test x y ↔ (y ≠ x ∧ x ≠ src ∧ y ≠ src) ∧ ⟨y, src⟩ ∈ es)) :
    ((succ src).map fun x => ((succ x).map fun y => if test x y then 1 else 0).sum).sum = triangles es src := by
  rw [Counting.sum_pairs (nodup src) fun x _ => nodup x, triangles]
  congr 1
  ext ⟨x, y⟩
  simp only [Set.mem_ofPred_eq, stored, Triangle]
  constructor
  · rintro ⟨first, second, passes⟩
    obtain ⟨⟨yx, xs, ys⟩, third⟩ := (closes x y first second).mp passes
    exact ⟨xs, ys, yx.symm, first, second, third⟩
  · rintro ⟨xs, ys, xy, first, second, third⟩
    exact ⟨first, second, (closes x y first second).mpr ⟨⟨xy.symm, xs, ys⟩, third⟩⟩

theorem Whole.triangles (w : Whole E m h) (exactly : ∀ x d, d ∈ entries E m h x ↔ ⟨x, d⟩ ∈ es)
    (known : ∀ e ∈ es, e.src ≠ 0 ∧ e.dst ≠ 0) (src : Key) (b1 b2 : Buffer) :
    h.queryTriangles E m src b1 b2 = CuckooGraph.triangles es src := by
  choose succ stored listed _ using w.successors
  have once : ∀ x, (succ x).Nodup := fun x => by
    rw [← Multiset.coe_nodup, stored x]
    exact w.nodup x
  have members : ∀ x d, d ∈ succ x ↔ ⟨x, d⟩ ∈ es := fun x d => by
    rw [← Multiset.mem_coe, stored x]
    exact exactly x d
  rw [Holemerge.queryTriangles_eq listed]
  refine forward_triangles once members fun x y first second => ?_
  have closing := w.query_iff (e := ⟨y, src⟩) (known _ second).2 (known _ first).1
  rw [closing, exactly y src]
  simp only [and_assoc]

namespace WindBell.Chandelier

variable {ω : Type} {lists : Place → List Addr}

/-- Both counters of a matrix which has the edges `es`. -/
theorem Sound.triangles_of {c : Chandelier ω} (s : c.Sound E lists) (positive : 0 < c.len)
    (holds : ∀ e, (∃ p a, c.Found lists e p a) ↔ e ∈ es) {ask : Edge → Option Bool}
    (asked : ∀ e, ask e = some (decide (e ∈ es))) (src : Key) (b1 b2 : Buffer) :
    trianglesBetween (c.querySuccessor E) (c.queryPrecursor E) ask src b1 b2 = some (CuckooGraph.triangles es src) ∧
      trianglesForward (c.querySuccessor E) ask src b1 b2 = some (CuckooGraph.triangles es src) := by
  have forward : ∀ x, ∃ ids : List Key, (∀ buf U, c.querySuccessor E x buf U = some (buf.write U ids)) ∧
      ids.Nodup ∧ ∀ d, d ∈ ids ↔ ⟨x, d⟩ ∈ es := fun x => by
    obtain ⟨ids, listed, once, members⟩ := s.querySuccessor positive x
    exact ⟨ids, listed, once, fun d => (members d).trans (holds _)⟩
  have backward : ∀ x, ∃ ids : List Key, (∀ buf U, c.queryPrecursor E x buf U = some (buf.write U ids)) ∧
      ids.Nodup ∧ ∀ d, d ∈ ids ↔ ⟨d, x⟩ ∈ es := fun x => by
    obtain ⟨ids, listed, once, members⟩ := s.queryPrecursor positive x
    exact ⟨ids, listed, once, fun d => (members d).trans (holds _)⟩
  choose succ listed once members using forward
  choose pred before distinct sources using backward
  refine ⟨?_, ?_⟩
  · rw [trianglesBetween_eq asked listed before, Counting.sum_pairs (once src) fun _ _ => distinct src,
      CuckooGraph.triangles]
    congr 2
    ext ⟨x, y⟩
    simp only [Set.mem_ofPred_eq, members, sources, Triangle]
    constructor
    · rintro ⟨first, third, ⟨xs, ys, yx⟩, second⟩
      exact ⟨xs, ys, yx.symm, first, second, third⟩
    · rintro ⟨xs, ys, xy, first, second, third⟩
      exact ⟨first, third, ⟨xs, ys, xy.symm⟩, second⟩
  · rw [trianglesForward_eq asked listed]
    exact congrArg some (forward_triangles once members fun _ _ _ _ => Iff.rfl)

theorem Sound.triangles {c : Chandelier Unit} (s : c.Sound E lists) (low : c.Low) (positive : 0 < c.len)
    (holds : ∀ e, c.Holds lists e ↔ e ∈ es) (src : Key) (b1 b2 : Buffer) :
    c.queryTriangles E src b1 b2 = some (CuckooGraph.triangles es src) ∧
      c.queryTriangleNew E src b1 b2 = some (CuckooGraph.triangles es src) := by
  have asked : ∀ e, c.queryEdge E e = some (decide (e ∈ es)) := fun e => by
    obtain ⟨b, found, here⟩ := s.query low e
    rw [found, Option.some_inj, Bool.eq_iff_iff, here, holds, decide_eq_true_iff]
  exact s.triangles_of positive holds asked src b1 b2

end WindBell.Chandelier

open WindBell.Chandelier in
/-- The three counters agree on whatever was inserted. -/
theorem triangles_agree (E : Env) {l1 l2 : Nat} (sizes : 2 ≤ l2 ∧ l2 ≤ l1) (s1 s2 : Int) {len : Nat}
    (size : 0 < len ∧ len ≤ WindBell.maxTcm) (calls : List WindBell.Chandelier.Call)
    (known : ∀ x ∈ calls, x.1.src ≠ 0 ∧ x.1.dst ≠ 0)
    (low : ∀ before, before <+: inserts calls → (run E len before).Low) (src : Key) (b1 b2 : Buffer) :
    let es := calls.map Prod.fst
    let s := insertEdges E (Memory.initial, Holemerge.fresh l1 l2 s1 s2) es
    s.2.queryTriangles E s.1 src b1 b2 = triangles es src ∧
      ∃ c, built E len (inserts calls) = some c ∧ c.queryTriangles E src b1 b2 = some (triangles es src) ∧
        c.queryTriangleNew E src b1 b2 = some (triangles es src) := by
  intro es s
  have known : ∀ e ∈ es, e.src ≠ 0 ∧ e.dst ≠ 0 := by
    intro e he
    obtain ⟨x, hx, rfl⟩ := List.mem_map.mp he
    exact known x hx
  obtain ⟨whole, -⟩ := insertEdges_fresh E sizes s1 s2 known
  obtain ⟨lists, sound, holds⟩ := run_sound len (inserts calls) low (outer_inserts len calls)
  have here : 0 < (run E len (inserts calls)).len := by
    rw [(size_run E len (inserts calls)).1]
    exact size.1
  refine ⟨whole.triangles (entries_insertEdges sizes known) known src b1 b2, _, built_inside E size.2 _, ?_⟩
  exact sound.triangles (low _ List.prefix_rfl) here (fun e => (holds e).trans (mem_remaining_inserts calls e)) src b1 b2

open WindBell.Chandelier in
/-- One triangle, one of its edges being inserted twice. -/
theorem triangles_agree_one : triangles [⟨1, 2⟩, ⟨2, 3⟩, ⟨3, 1⟩, ⟨1, 2⟩] 1 = 1 := by
  obtain ⟨-, c, done, counted, -⟩ := triangles_agree colliding default_sizes 0 221 (by decide)
    [(⟨1, 2⟩, none, none), (⟨2, 3⟩, none, none), (⟨3, 1⟩, none, none), (⟨1, 2⟩, none, none)] (by decide)
    (run_low 1 _ (by decide) (outer_inserts 1 _)) 1 (fun _ => 0) (fun _ => 0)
  obtain rfl := Option.some.inj ((built_inside colliding (by decide) _).symm.trans done)
  refine Option.some.inj (counted.symm.trans ?_)
  decide +kernel

open WindBell.Chandelier in
/-- Of length 7001 there is no matrix to count anything. -/
theorem triangles_outside : ¬ ∃ c, built colliding 7001 (inserts []) = some c ∧
    c.queryTriangles colliding 1 (fun _ => 0) (fun _ => 0) = some (triangles [] 1) := by
  rintro ⟨c, done, -⟩
  rw [built_outside colliding (by decide)] at done
  cases done

end Counts

end CuckooGraph
