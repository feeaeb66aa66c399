import CuckooGraph.Distances
import CuckooGraph.WindBell
import CuckooGraph.Unweighted
import CuckooGraph.Weighted
import Mathlib.Logic.Function.Basic

/-! # Shortest paths

`test_sssp_new` and, in the weighted build, `test_sssp_hole` and `test_sssp_wind`
run the same loops over different stores: the first row of distances, then up to
`num - 1` rounds which select a node and relax what leads out of it. The weighted
drivers ask for the edges out of `vs` in the relaxation, too.
-/

namespace CuckooGraph

/-- The variables of the loops. `k` has no value before the first selection. -/
structure Sssp where
  flag : Key → Bool
  dist : Key → Nat
  k : Option Key

namespace Sssp

/-- In what the drivers differ. -/
structure Driver where
  /-- `INF` -/
  inf : Nat
  /-- The addition, `none` if it overflows a signed type. -/
  plus : Nat → Nat → Option Nat
  /-- The query of an edge, 0 if there is none; `none` if the search does not end. -/
  ask : Key → Key → Option Nat
  /-- The source of the edges which are relaxed, given `vs` and `k`. -/
  origin : Key → Key → Key

variable (D : Driver) (topk : List Key)

/-- `flag.insert` and `dist.insert` for the nodes of the list. -/
def firstRow (vs : Key) (topk : List Key) : Option Sssp :=
  topk.foldlM (fun s v => do
    let we ← D.ask vs v
    return { s with flag := Function.update s.flag v false,
                    dist := Function.update s.dist v (if we ≠ 0 then we else D.inf) })
    ⟨fun _ => false, fun _ => 0, none⟩

/-- `min`, and the node selected, if there is one (`fff`). -/
def select (topk : List Key) (s : Sssp) : Nat × Option Key :=
  topk.foldl (fun a v => if s.flag v = false ∧ (a.2 = none ∨ s.dist v < a.1) then (s.dist v, some v) else a)
    (D.inf, none)

/-- The loop which relaxes the edges out of `src`. -/
def relax (src : Key) (min : Nat) (topk : List Key) (s : Sssp) : Option Sssp :=
  topk.foldlM (fun s v => do
    let we ← D.ask src v
    let tmp ← (if we ≠ 0 then D.plus min we else some D.inf)
    return if s.flag v = false ∧ tmp < s.dist v then { s with dist := Function.update s.dist v tmp } else s) s

/-- The rounds left. -/
def rounds (vs : Key) : Nat → Sssp → Option Sssp
  | 0, s => some s
  | left + 1, s => do
      let (min, chosen) := select D topk s
      let k ← chosen.or s.k
      let s := { s with flag := Function.update s.flag k true, k := some k }
      if min = D.inf then some s
      else rounds vs left (← relax D (D.origin vs k) min topk s)

def run (vs : Key) : Option Sssp := do
  let s ← firstRow D vs topk
  rounds D topk vs (topk.length - 1)
    { s with flag := Function.update s.flag vs true, dist := Function.update s.dist vs 0 }

/-- An addition of type `int`, of values which are not negative. -/
def plusInt (a b : Nat) : Option Nat := if a + b ≤ 2147483647 then some (a + b) else none

/-- An addition of type `uint32_t`. -/
def plusUint32 (a b : Nat) : Option Nat := some ((a + b) % 2 ^ 32)

/-- The loops of `test_sssp_new` in the unweighted build. -/
def newDriver (edge : Key → Key → Option Bool) : Driver :=
  ⟨2147483647, plusInt, fun a b => (edge a b).map fun found => if found then 1 else 0, fun _ k => k⟩

/-- The loops of the weighted build. -/
def weightedDriver (weight : Key → Key → Option UInt32) : Driver :=
  ⟨2 ^ 32 - 1, plusUint32, fun a b => (weight a b).map UInt32.toNat, fun vs _ => vs⟩

end Sssp

open Sssp

variable (E : Env) (topk : List Key) (vs : Key)

/-- `test_sssp_new` over a `holemerge`. -/
def testSsspNewHole (m : Memory Key) (hole : Holemerge Key) : Option Sssp :=
  run (newDriver fun a b => some (hole.query E m ⟨a, b⟩ ≠ 0)) topk vs

/-- `test_sssp_new` over a `Chandelier`. -/
def testSsspNewWind (wind : WindBell.Chandelier Unit) : Option Sssp :=
  run (newDriver fun a b => wind.queryEdge E ⟨a, b⟩) topk vs

def testSsspHole (m : Memory Weighted.Cell) (hole : Holemerge Weighted.Cell) : Option Sssp :=
  run (weightedDriver fun a b => some (Weighted.query E m hole ⟨a, b⟩)) topk vs

def testSsspWind (wind : WindBell.Chandelier UInt32) : Option Sssp :=
  run (weightedDriver fun a b => wind.queryWeight E ⟨a, b⟩) topk vs

namespace Sssp

/-- The edges between nodes of the list, with their weights. -/
def inside (topk : List Key) (w : Key → Key → Nat) (a : Key) (c : Nat) (b : Key) : Prop :=
  a ∈ topk ∧ b ∈ topk ∧ w a b = c ∧ c ≠ 0

section Loops

variable {D : Driver} {topk : List Key} {s : Sssp} {w : Key → Nat}

/-- What the first row holds for a node whose edge weighs `we`. -/
def Driver.direct (D : Driver) (we : Nat) : Nat := if we ≠ 0 then we else D.inf

theorem firstRow_eq {vs : Key} (asked : ∀ v ∈ topk, D.ask vs v = some (w v)) : firstRow D vs topk =
    some ⟨fun _ => false, fun v => if v ∈ topk then D.direct (w v) else 0, none⟩ := by
  have general : ∀ s : Sssp, (∀ v, s.flag v = false) → topk.foldlM (fun s v => do
      let we ← D.ask vs v
      return { s with flag := Function.update s.flag v false,
                      dist := Function.update s.dist v (if we ≠ 0 then we else D.inf) }) s =
      some { s with dist := fun v => if v ∈ topk then D.direct (w v) else s.dist v } := by
    induction topk with
    | nil => exact fun s _ => by simp
    | cons x topk ih =>
        intro s unset
        have same : Function.update s.flag x false = s.flag := by
          rw [← unset x, Function.update_eq_self]
        simp only [List.foldlM_cons, asked x List.mem_cons_self, Option.bind_eq_bind, Option.bind_some,
          Option.pure_def, same]
        refine (ih (fun v hv => asked v (List.mem_cons_of_mem x hv))
          { s with dist := Function.update s.dist x (if w x ≠ 0 then w x else D.inf) } unset).trans ?_
        simp only [Option.some.injEq, Sssp.mk.injEq, true_and, and_true]
        funext v
        by_cases here : v = x
        · subst here
          simp [Driver.direct]
        · simp [here]
  exact general ⟨fun _ => false, fun _ => 0, none⟩ fun _ => rfl

/-- The node selected has the least distance of those without a flag. -/
theorem select_spec (more : ∃ v ∈ topk, s.flag v = false) : ∃ k ∈ topk, s.flag k = false ∧
    select D topk s = (s.dist k, some k) ∧ ∀ v ∈ topk, s.flag v = false → s.dist k ≤ s.dist v := by
  have general : ∀ a : Nat × Option Key, (∀ k, a.2 = some k → s.flag k = false ∧ a.1 = s.dist k) →
      let r := topk.foldl (fun a v =>
        if s.flag v = false ∧ (a.2 = none ∨ s.dist v < a.1) then (s.dist v, some v) else a) a
      (∀ k, r.2 = some k → s.flag k = false ∧ r.1 = s.dist k ∧ (k ∈ topk ∨ a.2 = some k)) ∧
        (a.2 ≠ none → r.2 ≠ none ∧ r.1 ≤ a.1) ∧
        ∀ v ∈ topk, s.flag v = false → r.2 ≠ none ∧ r.1 ≤ s.dist v := by
    clear more
    induction topk with
    | nil =>
        intro a held
        refine ⟨fun k here => ⟨(held k here).1, (held k here).2, .inr here⟩, fun some => ⟨some, le_refl _⟩, ?_⟩
        simp
    | cons x topk ih =>
        intro a held
        by_cases taken : s.flag x = false ∧ (a.2 = none ∨ s.dist x < a.1)
        · obtain ⟨found, kept, least⟩ := ih (s.dist x, some x) fun k here => by
            obtain rfl := Option.some.inj here
            exact ⟨taken.1, rfl⟩
          obtain ⟨some, low⟩ := kept (by simp)
          simp only [List.foldl_cons, if_pos taken]
          refine ⟨fun k here => ?_, fun other => ⟨some, ?_⟩, fun v hv unset => ?_⟩
          · obtain ⟨unset, dist, place⟩ := found k here
            refine ⟨unset, dist, .inl ?_⟩
            rcases place with place | place
            · exact List.mem_cons_of_mem x place
            · rw [← Option.some.inj place]
              exact List.mem_cons_self
          · rcases taken.2 with none | less
            · exact absurd none other
            · exact low.trans less.le
          · rcases List.mem_cons.mp hv with rfl | hv
            · exact ⟨some, low⟩
            · exact least v hv unset
        · obtain ⟨found, kept, least⟩ := ih a held
          simp only [List.foldl_cons, if_neg taken]
          refine ⟨fun k here => ?_, kept, fun v hv unset => ?_⟩
          · obtain ⟨unset, dist, place⟩ := found k here
            exact ⟨unset, dist, place.imp_left (List.mem_cons_of_mem x)⟩
          · rcases List.mem_cons.mp hv with rfl | hv
            · have some : a.2 ≠ none := fun none => taken ⟨unset, .inl none⟩
              have high : a.1 ≤ s.dist v := Nat.le_of_not_lt fun less => taken ⟨unset, .inr less⟩
              exact ⟨(kept some).1, (kept some).2.trans high⟩
            · exact least v hv unset
  obtain ⟨found, -, least⟩ := general (D.inf, none) (by simp)
  obtain ⟨v, hv, unset⟩ := more
  obtain ⟨some, -⟩ := least v hv unset
  obtain ⟨k, chosen⟩ := Option.ne_none_iff_exists'.mp some
  obtain ⟨unset', dist, place⟩ := found k chosen
  refine ⟨k, place.resolve_right (by simp), unset', Prod.ext dist chosen, fun v hv unset => ?_⟩
  exact dist ▸ (least v hv unset).2

/-- The number of nodes without a flag. -/
def left (topk : List Key) (s : Sssp) : Nat := (topk.filter fun v => !s.flag v).length

theorem left_flag (nodup : topk.Nodup) {k : Key} (hk : k ∈ topk) (unset : s.flag k = false) {s' : Sssp}
    (flag : s'.flag = Function.update s.flag k true) : left topk s' + 1 = left topk s := by
  have member : k ∈ topk.filter fun v => !s.flag v := List.mem_filter.mpr ⟨hk, by simp [unset]⟩
  have erased : (topk.filter fun v => !s'.flag v) = (topk.filter fun v => !s.flag v).erase k := by
    rw [(nodup.filter _).erase_eq_filter, List.filter_filter]
    refine List.filter_congr fun v _ => ?_
    by_cases here : v = k
    · simp [flag, here]
    · simp [flag, here]
  rw [left, left, erased, List.length_erase_of_mem member]
  have positive := List.length_pos_of_mem member
  omega

theorem left_eq_zero (none : left topk s = 0) {v : Key} (hv : v ∈ topk) : s.flag v = true := by
  have empty := List.filter_eq_nil_iff.mp (List.length_eq_zero_iff.mp none) v hv
  simpa using empty

/-- What the relaxation compares with the distance of a node. -/
def Driver.offer (D : Driver) (we sum : Nat) : Nat := if we ≠ 0 then sum else D.inf

theorem relax_eq {src : Key} {min : Nat} {sum : Key → Nat} (asked : ∀ v ∈ topk, D.ask src v = some (w v))
    (fits : ∀ v ∈ topk, w v ≠ 0 → D.plus min (w v) = some (sum v)) : relax D src min topk s =
      some { s with dist := fun v =>
        if v ∈ topk ∧ s.flag v = false then Nat.min (D.offer (w v) (sum v)) (s.dist v) else s.dist v } := by
  unfold relax
  induction topk generalizing s with
  | nil => simp
  | cons x topk ih =>
      have added : (if w x ≠ 0 then D.plus min (w x) else some D.inf) = some (D.offer (w x) (sum x)) := by
        by_cases zero : w x = 0
        · simp [Driver.offer, zero]
        · simp [Driver.offer, zero, fits x List.mem_cons_self zero]
      simp only [List.foldlM_cons, asked x List.mem_cons_self, Option.bind_eq_bind, Option.bind_some,
        Option.pure_def, added]
      by_cases taken : s.flag x = false ∧ D.offer (w x) (sum x) < s.dist x
      · simp only [if_pos taken]
        refine (ih (s := { s with dist := Function.update s.dist x (D.offer (w x) (sum x)) })
          (fun v hv => asked v (List.mem_cons_of_mem x hv))
          fun v hv => fits v (List.mem_cons_of_mem x hv)).trans ?_
        simp only [Option.some.injEq, Sssp.mk.injEq, true_and, and_true]
        funext v
        by_cases here : v = x
        · subst here
          simp [taken.1, Nat.min_eq_left taken.2.le]
        · simp [here]
      · simp only [if_neg taken]
        refine (ih (s := s) (fun v hv => asked v (List.mem_cons_of_mem x hv))
          fun v hv => fits v (List.mem_cons_of_mem x hv)).trans ?_
        simp only [Option.some.injEq, Sssp.mk.injEq, true_and, and_true]
        funext v
        by_cases here : v = x
        · subst here
          by_cases unset : s.flag v = false
          · have high : s.dist v ≤ D.offer (w v) (sum v) := Nat.le_of_not_lt fun less => taken ⟨unset, less⟩
            simp [unset, Nat.min_eq_right high]
          · simp [unset]
        · simp [here]

/-- What a relaxation does, with the sums `sum`. -/
structure Relaxed (topk : List Key) (w sum : Key → Nat) (s s' : Sssp) : Prop where
  flag : s'.flag = s.flag
  kept : ∀ v, s.flag v = true → s'.dist v = s.dist v
  le : ∀ v, s'.dist v ≤ s.dist v
  offered : ∀ v ∈ topk, s.flag v = false → w v ≠ 0 → s'.dist v ≤ sum v
  source : ∀ v, s'.dist v = s.dist v ∨ w v ≠ 0 ∧ s'.dist v = sum v

theorem relax_spec (src : Key) (min : Nat) (sum : Key → Nat) (asked : ∀ v ∈ topk, D.ask src v = some (w v))
    (fits : ∀ v ∈ topk, w v ≠ 0 → D.plus min (w v) = some (sum v)) (top : ∀ v ∈ topk, s.dist v ≤ D.inf) :
    ∃ s', relax D src min topk s = some s' ∧ Relaxed topk w sum s s' := by
  refine ⟨_, relax_eq asked fits, rfl, fun v set => by simp [set], fun v => ?_, fun v hv unset edge => ?_,
    fun v => ?_⟩
  · dsimp only
    split
    · exact Nat.min_le_right _ _
    · exact le_refl _
  · simp only [hv, unset, and_self, if_true, Driver.offer, edge, ne_eq, not_false_eq_true]
    exact Nat.min_le_left _ _
  · dsimp only
    split
    · rename_i here
      by_cases edge : w v = 0
      · refine .inl (Nat.min_eq_right ?_)
        simpa [Driver.offer, edge] using top v here.1
      · rcases Nat.le_total (D.offer (w v) (sum v)) (s.dist v) with less | less
        · refine .inr ⟨edge, (Nat.min_eq_left less).trans ?_⟩
          simp [Driver.offer, edge]
        · exact .inl (Nat.min_eq_right less)
    · exact .inl rfl

/-- One round. -/
theorem rounds_succ (vs : Key) {n : Nat} (more : left topk s = n + 1) : ∃ k ∈ topk, s.flag k = false ∧
    (∀ v ∈ topk, s.flag v = false → s.dist k ≤ s.dist v) ∧
    rounds D topk vs (n + 1) s =
      let s' := { s with flag := Function.update s.flag k true, k := some k }
      if s.dist k = D.inf then some s'
      else (relax D (D.origin vs k) (s.dist k) topk s').bind (rounds D topk vs n) := by
  obtain ⟨v, hv⟩ := List.exists_mem_of_length_pos (l := topk.filter fun v => !s.flag v) (by rw [left] at more; omega)
  obtain ⟨hv, unset⟩ := List.mem_filter.mp hv
  obtain ⟨k, hk, open_, chosen, low⟩ := select_spec (D := D) ⟨v, hv, by simpa using unset⟩
  refine ⟨k, hk, open_, low, ?_⟩
  simp only [rounds, chosen, Option.some_or, Option.bind_eq_bind, Option.bind_some]

/-- The state before the rounds. -/
structure Started (D : Driver) (topk : List Key) (w : Key → Nat) (vs : Key) (s : Sssp) : Prop where
  flag : ∀ u, s.flag u = true ↔ u = vs
  source : s.dist vs = 0
  direct : ∀ v ∈ topk, v ≠ vs → s.dist v = D.direct (w v)
  left : left topk s + 1 = topk.length

theorem run_eq {vs : Key} (nodup : topk.Nodup) (hvs : vs ∈ topk) (asked : ∀ v ∈ topk, D.ask vs v = some (w v)) :
    ∃ s, Started D topk w vs s ∧ run D topk vs = rounds D topk vs (topk.length - 1) s := by
  refine ⟨⟨Function.update (fun _ => false) vs true, Function.update (fun v => if v ∈ topk then D.direct (w v) else 0)
    vs 0, none⟩, ?_, ?_⟩
  · constructor
    case flag =>
      intro u
      by_cases here : u = vs <;> simp [here]
    case source => simp
    case direct =>
      intro v hv other
      simp [hv, other]
    case left =>
      rw [left_flag (s := ⟨fun _ => false, fun _ => 0, none⟩) nodup hvs rfl rfl]
      simp [Sssp.left]
  · rw [run, firstRow_eq asked]
    rfl

end Loops

end Sssp

end CuckooGraph
