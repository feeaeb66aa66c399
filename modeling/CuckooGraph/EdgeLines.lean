import Mathlib.Data.List.Basic
import Mathlib.Data.List.TakeWhile
import Mathlib.Tactic

/-! # Reading an edge from a line

`read_wiki_data`, `read_stackoverflow_data`, `read_NotreDame_data` and
`GeneralGraph::LoadData` scan the buffer which `getline` has filled. The scan does
not stop at the terminator but at the second number, or at the end of the buffer.
-/

namespace CuckooGraph

/-- A `char`. -/
abbrev Byte := UInt8

/-- `'0' <= c && c <= '9'`. -/
def isDigit (c : Byte) : Bool := 48 ≤ c && c ≤ 57

/-- What is in memory from the start of `s` on, after `getline` has written a line
    and the terminator. -/
def getline (line : List Byte) (s : Nat → Byte) : Nat → Byte := fun i => (line ++ [0]).getD i (s i)

/-- The variables of the scan, and the indices at which `s` was read. -/
structure Scan where
  k : Nat
  d : Nat
  src : List Byte
  dst : List Byte
  reads : List Nat

namespace Scan

def start : Scan := ⟨0, 0, [], [], []⟩

def read (c : Scan) (i : Nat) : Scan := { c with reads := c.reads ++ [i] }

/-- The inner loop, which ends at `r`. -/
def digits (s : Nat → Byte) : Nat → Nat → Scan → Option (Nat × Scan)
  | 0, _, _ => none
  | fuel + 1, r, c =>
      let c := c.read r
      if isDigit (s r) then
        if c.d = 0 then digits s fuel (r + 1) { c with src := c.src ++ [s r] }
        else if c.d = 1 then digits s fuel (r + 1) { c with dst := c.dst ++ [s r] }
        else digits s fuel r c
      else some (r, c)

/-- What is done after it. -/
def leave (r : Nat) (c : Scan) : Scan :=
  if c.d = 0 then { c with k := r, d := 1 } else if c.d = 1 then { c with k := 50 } else { c with k := r }

/-- The outer loop. -/
def loop (s : Nat → Byte) : Nat → Scan → Option Scan
  | 0, _ => none
  | fuel + 1, c =>
      if c.k < 50 then
        if isDigit (s c.k) then (digits s fuel c.k (c.read c.k)).bind fun (r, c) => loop s fuel (leave r c)
        else loop s fuel { c.read c.k with k := c.k + 1 }
      else some c

end Scan

/-- The first maximal run of digits, empty if there is none. -/
def firstRun (line : List Byte) : List Byte := (line.dropWhile fun c => !isDigit c).takeWhile isDigit

def afterRun (line : List Byte) : List Byte := (line.dropWhile fun c => !isDigit c).dropWhile isDigit

def secondRun (line : List Byte) : List Byte := firstRun (afterRun line)

/-- The scan ends, reads nothing behind the terminator, and finds the two runs. -/
def ParsesAlone (line : List Byte) (s : Nat → Byte) : Prop :=
  ∃ enough r, (∀ fuel, enough ≤ fuel → Scan.loop (getline line s) fuel Scan.start = some r) ∧
    (∀ i ∈ r.reads, i ≤ line.length) ∧ r.src = firstRun line ∧ r.dst = secondRun line

section Lines

theorem getline_at (a b : List Byte) (x : Byte) (s : Nat → Byte) : getline (a ++ x :: b) s a.length = x := by
  simp [getline, List.getD_eq_getElem?_getD]

theorem getline_end (line : List Byte) (s : Nat → Byte) : getline line s line.length = 0 := by
  simp [getline, List.getD_eq_getElem?_getD]

/-- What follows a run is no digit, be it the terminator. -/
theorem getline_stop {a b : List Byte} (s : Nat → Byte) (stop : ∀ x ∈ b.head?, isDigit x = false) :
    isDigit (getline (a ++ b) s a.length) = false := by
  cases b with
  | nil =>
      rw [List.append_nil, getline_end]
      decide
  | cons x b =>
      rw [getline_at]
      exact stop x rfl

theorem firstRun_nil {line : List Byte} (nothing : firstRun line = []) : ∀ x ∈ line, isDigit x = false := by
  induction line with
  | nil => simp
  | cons x line ih =>
      cases digit : isDigit x with
      | true => simp [firstRun, digit] at nothing
      | false =>
          have rest : firstRun line = [] := by simpa [firstRun, digit] using nothing
          intro y hy
          cases List.mem_cons.mp hy with
          | inl here => rw [here, digit]
          | inr there => exact ih rest y there

theorem afterRun_nil {line : List Byte} (nothing : firstRun line = []) : afterRun line = [] := by
  have all : line.dropWhile (fun c => !isDigit c) = [] :=
    List.dropWhile_eq_nil_iff.mpr fun x hx => by simp [firstRun_nil nothing x hx]
  rw [afterRun, all, List.dropWhile_nil]

/-- A line up to the end of its first run. -/
theorem split_run (line : List Byte) : ∃ ns, (∀ x ∈ ns, isDigit x = false) ∧
    line = ns ++ firstRun line ++ afterRun line ∧ (∀ x ∈ firstRun line, isDigit x = true) ∧
    ∀ x ∈ (afterRun line).head?, isDigit x = false := by
  refine ⟨line.takeWhile fun c => !isDigit c, fun x hx => ?_, ?_, fun x hx => ?_, fun x hx => ?_⟩
  · simpa using List.mem_takeWhile_imp hx
  · rw [List.append_assoc, firstRun, afterRun, List.takeWhile_append_dropWhile, List.takeWhile_append_dropWhile]
  · exact List.mem_takeWhile_imp hx
  · have stop := List.head?_dropWhile_not isDigit (line.dropWhile fun c => !isDigit c)
    rw [afterRun, Option.mem_def] at hx
    rw [hx] at stop
    simpa using stop

end Lines

namespace Scan

/-- `c'` has taken the digits `ds`, and has not read behind `last`. -/
structure Took (c : Scan) (ds : List Byte) (last : Nat) (c' : Scan) : Prop where
  d : c'.d = c.d
  src : c'.src = if c.d = 0 then c.src ++ ds else c.src
  dst : c'.dst = if c.d = 0 then c.dst else c.dst ++ ds
  reads : ∀ i ∈ c'.reads, i ∈ c.reads ∨ i ≤ last

/-- The outer loop comes from `c` to `c'` in `n` passes. The inner loop needs 50 at most. -/
def Leads (s : Nat → Byte) (n : Nat) (c c' : Scan) : Prop :=
  ∀ fuel, n + 50 ≤ fuel → loop s fuel c = loop s (fuel - n) c'

theorem Leads.trans {s : Nat → Byte} {n n' : Nat} {c c' c'' : Scan} (first : Leads s n c c')
    (second : Leads s n' c' c'') : Leads s (n + n') c c'' := by
  intro fuel enough
  rw [first fuel (by omega), second (fuel - n) (by omega), Nat.sub_sub]

section Passes

variable {a b ds ns : List Byte} {s : Nat → Byte} {c : Scan}

theorem digits_spec (c : Scan) (low : c.d ≤ 1) (all : ∀ x ∈ ds, isDigit x = true)
    (stop : ∀ x ∈ b.head?, isDigit x = false) : ∃ c', Took c ds (a ++ ds).length c' ∧
      ∀ fuel, ds.length < fuel →
        digits (getline (a ++ ds ++ b) s) fuel a.length c = some ((a ++ ds).length, c') := by
  induction ds generalizing a c with
  | nil =>
      refine ⟨c.read a.length, ⟨rfl, by simp [read], by simp [read], fun i hi => ?_⟩, fun fuel enough => ?_⟩
      · simp only [read, List.mem_append, List.mem_singleton] at hi
        exact hi.imp_right fun here => by simp [here]
      · obtain ⟨fuel, rfl⟩ := Nat.exists_eq_succ_of_ne_zero (Nat.ne_of_gt enough)
        rw [List.append_nil, digits, if_neg (by simp [getline_stop s stop])]
  | cons x ds ih =>
      have digit := all x List.mem_cons_self
      have here : a ++ x :: ds ++ b = (a ++ [x]) ++ ds ++ b := by simp
      have there : (a ++ x :: ds).length = (a ++ [x] ++ ds).length := by simp
      have at_x : getline ((a ++ [x]) ++ ds ++ b) s a.length = x := by
        rw [← here, List.append_assoc, List.cons_append, getline_at]
      obtain ⟨c₁, first, same, src, dst, reads⟩ : ∃ c₁ : Scan, (∀ fuel, digits (getline (a ++ x :: ds ++ b) s) (fuel + 1)
          a.length c = digits (getline ((a ++ [x]) ++ ds ++ b) s) fuel (a ++ [x]).length c₁) ∧ c₁.d = c.d ∧
          (c₁.src = if c.d = 0 then c.src ++ [x] else c.src) ∧
          (c₁.dst = if c.d = 0 then c.dst else c.dst ++ [x]) ∧ c₁.reads = c.reads ++ [a.length] := by
        rw [here]
        by_cases zero : c.d = 0
        · refine ⟨{ c.read a.length with src := c.src ++ [x] }, fun fuel => ?_, rfl, by simp [zero],
            by simp [zero, read], rfl⟩
          rw [digits, at_x, if_pos digit]
          simp [read, zero]
        · have one : c.d = 1 := by omega
          refine ⟨{ c.read a.length with dst := c.dst ++ [x] }, fun fuel => ?_, rfl, by simp [zero, read],
            by simp [zero], rfl⟩
          rw [digits, at_x, if_pos digit]
          simp [read, one]
      obtain ⟨c', took, rest⟩ := ih (a := a ++ [x]) c₁ (same ▸ low) fun y hy => all y (List.mem_cons_of_mem x hy)
      refine ⟨c', ⟨took.d.trans same, ?_, ?_, fun i hi => ?_⟩, fun fuel enough => ?_⟩
      · rw [took.src, same, src]
        split <;> simp
      · rw [took.dst, same, dst]
        split <;> simp
      · rw [there]
        cases took.reads i hi with
        | inl old =>
            rw [reads, List.mem_append, List.mem_singleton] at old
            refine old.imp_right fun here => ?_
            rw [here]
            simp
        | inr new => exact .inr new
      · rw [List.length_cons] at enough
        obtain ⟨fuel, rfl⟩ := Nat.exists_eq_succ_of_ne_zero (Nat.ne_of_gt (Nat.zero_lt_of_lt enough))
        rw [first, rest fuel (by omega), there]

/-- Passes over what are no digits. -/
theorem leads_skip (c : Scan) (here : c.k = a.length) (none : ∀ x ∈ ns, isDigit x = false)
    (inside : (a ++ ns).length ≤ 50) : ∃ c', Leads (getline (a ++ ns ++ b) s) ns.length c c' ∧
      c'.k = (a ++ ns).length ∧ Took c [] (a ++ ns).length c' := by
  induction ns generalizing a c with
  | nil =>
      refine ⟨c, fun fuel _ => rfl, by simpa using here, ⟨rfl, by simp, by simp, fun i hi => .inl hi⟩⟩
  | cons x ns ih =>
      have same : a ++ x :: ns ++ b = (a ++ [x]) ++ ns ++ b := by simp
      have there : (a ++ x :: ns).length = (a ++ [x] ++ ns).length := by simp
      rw [there] at inside
      obtain ⟨c', rest, k, took⟩ := ih (a := a ++ [x]) { c.read a.length with k := c.k + 1 } (by simp [here])
        (fun y hy => none y (List.mem_cons_of_mem x hy)) inside
      refine ⟨c', fun fuel enough => ?_, by rw [k, there], ⟨took.d, took.src, took.dst, fun i hi => ?_⟩⟩
      · rw [List.length_cons] at enough ⊢
        obtain ⟨fuel, rfl⟩ : ∃ m, fuel = m + 1 := ⟨fuel - 1, by omega⟩
        have room : c.k < 50 := by
          simp only [List.length_append, List.length_singleton] at inside
          omega
        have at_x : isDigit (getline (a ++ x :: ns ++ b) s c.k) = false := by
          rw [here, List.append_assoc, List.cons_append, getline_at]
          exact none x List.mem_cons_self
        rw [loop, if_pos room, at_x, if_neg Bool.false_ne_true, here, same]
        rw [here] at rest
        rw [rest fuel (by omega), Nat.add_sub_add_right]
      · rw [there]
        cases took.reads i hi with
        | inl old =>
            simp only [read, List.mem_append, List.mem_singleton] at old
            refine old.imp_right fun at_a => ?_
            rw [at_a]
            simp
        | inr new => exact .inr new

/-- The pass which takes a run. -/
theorem leads_run (c : Scan) (here : c.k = a.length) (low : c.d ≤ 1) (some : ds ≠ [])
    (all : ∀ x ∈ ds, isDigit x = true) (stop : ∀ x ∈ b.head?, isDigit x = false) (inside : (a ++ ds).length < 50) :
    ∃ c', Leads (getline (a ++ ds ++ b) s) 1 c (leave (a ++ ds).length c') ∧ Took c ds (a ++ ds).length c' := by
  obtain ⟨c', took, ends⟩ := digits_spec (a := a) (s := s) (c.read c.k) low all stop
  refine ⟨c', fun fuel enough => ?_, ⟨took.d, took.src, took.dst, fun i hi => ?_⟩⟩
  · obtain ⟨fuel, rfl⟩ : ∃ m, fuel = m + 1 := ⟨fuel - 1, by omega⟩
    obtain ⟨x, rest, rfl⟩ := List.exists_cons_of_ne_nil some
    rw [List.length_append] at inside
    have room : c.k < 50 := by omega
    have at_x : isDigit (getline (a ++ x :: rest ++ b) s c.k) = true := by
      rw [here, List.append_assoc, List.cons_append, getline_at]
      exact all x List.mem_cons_self
    rw [loop, if_pos room, if_pos at_x, here]
    rw [here] at ends
    rw [ends fuel (by omega), Option.bind_some, Nat.add_sub_cancel]
  · cases took.reads i hi with
    | inl old =>
        simp only [read, List.mem_append, List.mem_singleton] at old
        refine old.imp_right fun at_a => ?_
        rw [at_a, here, List.length_append]
        omega
    | inr new => exact .inr new

end Passes

section Ends

variable {line : List Byte} {s : Nat → Byte} {c c' : Scan}

/-- Up to the end of the first run, or of the line. -/
theorem scan_first (short : line.length < 50) (s : Nat → Byte) : ∃ n c a, Leads (getline line s) n start c ∧
    c.src = firstRun line ∧ c.dst = [] ∧ (∀ i ∈ c.reads, i ≤ a.length) ∧ line = a ++ afterRun line ∧
    c.k = a.length ∧ (firstRun line ≠ [] → c.d = 1) := by
  by_cases nothing : firstRun line = []
  · have only := leads_skip (a := []) (b := []) (s := s) start rfl (firstRun_nil nothing) (by simpa using short.le)
    simp only [List.nil_append, List.append_nil] at only
    obtain ⟨c, leads, k, took⟩ := only
    refine ⟨_, c, line, leads, by rw [took.src, nothing]; rfl, took.dst, fun i hi => ?_, ?_, k,
      fun some => absurd nothing some⟩
    · exact (took.reads i hi).resolve_left (by simp [start])
    · rw [afterRun_nil nothing, List.append_nil]
  · obtain ⟨ns, none, whole, all, stop⟩ := split_run line
    have length := congrArg List.length whole
    simp only [List.length_append] at length
    have skip := leads_skip (a := []) (b := firstRun line ++ afterRun line) (s := s) start rfl none
      (by simp only [List.nil_append]; omega)
    simp only [List.nil_append, ← List.append_assoc, ← whole] at skip
    obtain ⟨c₁, leads, k, took⟩ := skip
    have run := leads_run (b := afterRun line) (s := s) c₁ k (by rw [took.d]; exact Nat.zero_le 1) nothing all stop
      (by rw [List.length_append]; omega)
    rw [← whole] at run
    obtain ⟨c₂, taken, took₂⟩ := run
    have zero : c₂.d = 0 := took₂.d.trans took.d
    refine ⟨_, _, ns ++ firstRun line, leads.trans taken, ?_, ?_, ?_, whole, ?_, fun _ => ?_⟩
    all_goals simp only [leave, zero, if_true]
    · rw [took₂.src, took.d, took.src]
      rfl
    · rw [took₂.dst, took.d, took.dst]
      rfl
    · intro i hi
      cases took₂.reads i hi with
      | inl old =>
          have first := (took.reads i old).resolve_left (by simp [start])
          rw [List.length_append]
          omega
      | inr new => exact new

/-- Up to the end of the second run, where the scan is over, or of the line. -/
theorem scan_line (short : line.length < 50) (s : Nat → Byte) : ∃ n c, Leads (getline line s) n start c ∧
    c.src = firstRun line ∧ c.dst = secondRun line ∧ (∀ i ∈ c.reads, i ≤ line.length) ∧
    (secondRun line = [] → c.k = line.length) ∧ (secondRun line ≠ [] → c.k = 50) := by
  obtain ⟨n, c, a, leads, src, dst, reads, whole, k, found⟩ := scan_first short s
  have length := congrArg List.length whole
  rw [List.length_append] at length
  by_cases nothing : secondRun line = []
  · have skip := leads_skip (b := []) (s := s) c k (firstRun_nil nothing) (by rw [← whole]; exact short.le)
    rw [List.append_nil, ← whole] at skip
    obtain ⟨c', rest, k', took⟩ := skip
    refine ⟨_, c', leads.trans rest, ?_, ?_, fun i hi => ?_, fun _ => k', fun some => absurd nothing some⟩
    · simp [took.src, src]
    · simp [took.dst, dst, nothing]
    · cases took.reads i hi with
      | inl old => exact (reads i old).trans (by omega)
      | inr new => exact new
  · have one : c.d = 1 := by
      apply found
      intro none
      rw [secondRun, afterRun_nil none] at nothing
      exact nothing rfl
    obtain ⟨ns, none, split, all, stop⟩ := split_run (afterRun line)
    have length' := congrArg List.length split
    simp only [List.length_append] at length'
    have skip := leads_skip (b := secondRun line ++ afterRun (afterRun line)) (s := s) c k none
      (by rw [List.length_append]; omega)
    have same : a ++ ns ++ (secondRun line ++ afterRun (afterRun line)) = line := by
      conv_rhs => rw [whole, split]
      simp [secondRun]
    rw [same] at skip
    obtain ⟨c₁, rest, k₁, took⟩ := skip
    have run := leads_run (b := afterRun (afterRun line)) (s := s) c₁ k₁ (by rw [took.d, one]) nothing all stop
      (by rw [List.length_append, List.length_append, secondRun]; omega)
    rw [List.append_assoc (a ++ ns), same] at run
    obtain ⟨c₂, taken, took₂⟩ := run
    have one₂ : c₂.d = 1 := took₂.d.trans (took.d.trans one)
    refine ⟨_, _, (leads.trans rest).trans taken, ?_, ?_, ?_, fun none => absurd none nothing, fun _ => ?_⟩
    all_goals simp only [leave, one₂, one_ne_zero, if_false, if_true]
    · simp [took₂.src, took.d, one, took.src, src]
    · simp [took₂.dst, took.d, one, took.dst, dst]
    · intro i hi
      simp only [List.length_append, secondRun] at took took₂
      cases took₂.reads i hi with
      | inl old =>
          cases took.reads i old with
          | inl older =>
              have := reads i older
              omega
          | inr new => omega
      | inr new => omega

/-- The terminator is passed over. -/
theorem leads_end (short : line.length < 50) (here : c.k = line.length) (s : Nat → Byte) :
    Leads (getline line s) 1 c { c.read c.k with k := c.k + 1 } := by
  intro fuel enough
  obtain ⟨fuel, rfl⟩ : ∃ m, fuel = m + 1 := ⟨fuel - 1, by omega⟩
  have stop : isDigit (getline line s c.k) = false := by
    rw [here, getline_end]
    decide
  rw [loop, if_pos (by omega), stop, if_neg Bool.false_ne_true, Nat.add_sub_cancel]

/-- What has been read stays on record. -/
theorem digits_reads {fuel r : Nat} {p : Nat × Scan} (done : digits s fuel r c = some p) :
    ∀ i ∈ c.reads, i ∈ p.2.reads := by
  induction fuel generalizing r c with
  | zero => simp [digits] at done
  | succ fuel ih =>
      intro i hi
      have kept : i ∈ (c.read r).reads := List.mem_append_left _ hi
      rw [digits] at done
      split at done
      · split at done
        · exact ih done i kept
        · split at done
          · exact ih done i kept
          · exact ih done i kept
      · cases done
        exact kept

theorem loop_reads {fuel : Nat} (done : loop s fuel c = some c') : ∀ i ∈ c.reads, i ∈ c'.reads := by
  induction fuel generalizing c with
  | zero => simp [loop] at done
  | succ fuel ih =>
      intro i hi
      have kept : i ∈ (c.read c.k).reads := List.mem_append_left _ hi
      rw [loop] at done
      split at done
      · split at done
        · obtain ⟨p, inner, outer⟩ := Option.bind_eq_some_iff.mp done
          apply ih outer
          have there := digits_reads inner i kept
          simp only [leave]
          split
          · exact there
          · split
            · exact there
            · exact there
        · exact ih done i kept
      · cases done
        exact hi

/-- The pass at `k` reads `s[k]`. -/
theorem loop_reads_here {fuel : Nat} (room : c.k < 50) (done : loop s fuel c = some c') : c.k ∈ c'.reads := by
  cases fuel with
  | zero => simp [loop] at done
  | succ fuel =>
      have logged : c.k ∈ (c.read c.k).reads := List.mem_append_right _ (List.mem_singleton_self _)
      rw [loop, if_pos room] at done
      split at done
      · obtain ⟨p, inner, outer⟩ := Option.bind_eq_some_iff.mp done
        have there := digits_reads inner _ logged
        apply loop_reads outer
        simp only [leave]
        split
        · exact there
        · split
          · exact there
          · exact there
      · exact loop_reads done _ logged

theorem loop_exit {fuel : Nat} (past : 50 ≤ c.k) (enough : 0 < fuel) : loop s fuel c = some c := by
  obtain ⟨fuel, rfl⟩ := Nat.exists_eq_succ_of_ne_zero (Nat.ne_of_gt enough)
  rw [loop, if_neg (by omega)]

end Ends

end Scan

section Alone

variable {line : List Byte}

theorem parses_alone (short : line.length < 50) (stops : secondRun line ≠ [] ∨ line.length = 49) (s : Nat → Byte) :
    ParsesAlone line s := by
  obtain ⟨n, c, leads, src, dst, reads, ended, found⟩ := Scan.scan_line short s
  by_cases nothing : secondRun line = []
  · have long := stops.resolve_left fun some => some nothing
    have k := ended nothing
    have all := leads.trans (Scan.leads_end short k s)
    refine ⟨n + 1 + 50, _, fun fuel enough => (all fuel enough).trans (Scan.loop_exit ?_ (by omega)), ?_, src, dst⟩
    · show 50 ≤ c.k + 1
      omega
    · intro i hi
      simp only [Scan.read, List.mem_append, List.mem_singleton] at hi
      cases hi with
      | inl old => exact reads i old
      | inr here => exact (here.trans k).le
  · refine ⟨n + 50, c, fun fuel enough => (leads fuel enough).trans (Scan.loop_exit ?_ (by omega)), reads, src, dst⟩
    rw [found nothing]

/-- A scan which comes to the terminator goes on behind it. -/
theorem not_parses_alone (room : line.length < 49) (nothing : secondRun line = []) (s : Nat → Byte) :
    ¬ ParsesAlone line s := by
  rintro ⟨enough, r, ends, within, -, -⟩
  obtain ⟨n, c, leads, -, -, -, ended, -⟩ := Scan.scan_line (Nat.lt_succ_of_lt room) s
  have k := ended nothing
  have all := leads.trans (Scan.leads_end (Nat.lt_succ_of_lt room) k s)
  have done := ends (enough + (n + 1 + 50)) (Nat.le_add_right _ _)
  rw [all _ (Nat.le_add_left _ _)] at done
  have behind := within _ (Scan.loop_reads_here (show c.k + 1 < 50 by omega) done)
  have at_k : c.k + 1 ≤ line.length := behind
  omega

/-- A line is read by itself just if it has two numbers, or leaves no room behind it. -/
theorem parsesAlone_iff (short : line.length < 50) (s : Nat → Byte) :
    ParsesAlone line s ↔ secondRun line ≠ [] ∨ line.length = 49 := by
  constructor
  · intro alone
    by_contra neither
    push Not at neither
    exact not_parses_alone (by omega) neither.1 s alone
  · exact fun stops => parses_alone short stops s

/-- `1 22`, before digits. -/
theorem parsesAlone_two : ParsesAlone [49, 32, 50, 50] fun _ => 57 :=
  (parsesAlone_iff (by decide) _).mpr (.inl (by decide))

/-- The line `12` after the line `10 345`: the edge goes to 345. -/
theorem parsesAlone_stale :
    (Scan.loop (getline [49, 50] (getline [49, 48, 32, 51, 52, 53] fun _ => 0)) 60 Scan.start).map
      (fun c => (c.src, c.dst)) = some ([49, 50], [51, 52, 53]) ∧
    ¬ ParsesAlone [49, 50] (getline [49, 48, 32, 51, 52, 53] fun _ => 0) :=
  ⟨by decide, not_parses_alone (by decide) (by decide) _⟩

end Alone

end CuckooGraph
