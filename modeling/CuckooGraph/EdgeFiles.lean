import CuckooGraph.EdgeLines
import CuckooGraph.ExtractSubGraph
import Mathlib.Data.Nat.Digits.Lemmas

/-! # Files of edges

The generators and the extract tool write an edge on a line, its ends with a blank or a
comma between them. The readers take lines or fields off the file and convert them
with `stoi`. Some pass over the first lines, whatever is written there.
-/

namespace CuckooGraph

namespace EdgeFiles

/-- `<<` of an `int` which is not negative. -/
def decimal (n : Nat) : List Byte :=
  if n = 0 then [48] else (Nat.digits 10 n).reverse.map fun d => UInt8.ofNat (48 + d)

/-- The number some digits stand for. -/
def value (ds : List Byte) : Nat := ds.foldl (fun v c => 10 * v + (c.toNat - 48)) 0

def isspace (c : Byte) : Bool := c = 32 || (9 ≤ c && c ≤ 13)

/-- `none` for an exception. -/
def stoi (s : List Byte) : Option Int :=
  let s := s.dropWhile isspace
  let ds := (if s.head? = some 45 ∨ s.head? = some 43 then s.tail else s).takeWhile isDigit
  let v : Int := if s.head? = some 45 then -value ds else value ds
  if ds = [] then none else if -2 ^ 31 ≤ v ∧ v < 2 ^ 31 then some v else none

/-- `getline` up to a delimiter: what is read, and what is left of the file. -/
def getlineTo (delim : Byte) (file : List Byte) : Option (List Byte × List Byte) :=
  if file = [] then none else some (file.takeWhile (· ≠ delim), (file.dropWhile (· ≠ delim)).drop 1)

section Scanning

/-- `items[i].src += 1` and `items[i].dst += 1`, or nothing. -/
def shift (off : Nat) (e : Int × Int) : Option (Int × Int) :=
  if e.1 + off < 2 ^ 31 ∧ e.2 + off < 2 ^ 31 then some (e.1 + off, e.2 + off) else none

/-- A line, which has to fit into the buffer `s`. -/
def parseLine (off : Nat) (s : Nat → Byte) (fuel : Nat) (line : List Byte) : Option (Int × Int) :=
  if line.length < 50 then
    (Scan.loop (getline line s) fuel Scan.start).bind fun c =>
      (stoi c.src).bind fun src => (stoi c.dst).bind fun dst => shift off (src, dst)
  else none

/-- The lines which are read into `useless`. -/
def useless : Nat → List Byte → Option (List Byte)
  | 0, file => some file
  | n + 1, file =>
      match getlineTo 10 file with
      | none => some file
      | some (line, rest) => if line.length < 50 then useless n rest else none

/-- The loop over the lines; `mem i` is in the buffer before line `i` is read. -/
def readLines (off : Nat) (mem : Nat → Nat → Byte) (scan : Nat) : Nat → Nat → List Byte → Option (List (Int × Int))
  | 0, _, _ => none
  | fuel + 1, i, file =>
      match getlineTo 10 file with
      | none => some []
      | some (line, rest) => (parseLine off (mem i) scan line).bind fun e =>
          (readLines off mem scan fuel (i + 1) rest).map (e :: ·)

/-- The readers which scan lines differ in the lines they pass over and in what is added to the ids. -/
def readEdges (header off : Nat) (mem : Nat → Nat → Byte) (fuel : Nat) (file : List Byte) : Option (List (Int × Int)) :=
  (useless header file).bind (readLines off mem fuel fuel 0)

/-- The length of `asrc` and `adst`. There are more `items`. -/
def maxEdges : Nat := 63497059

/-- `none` if a reader has written behind the end of `asrc`. -/
def intoArrays (edges : Option (List (Int × Int))) : Option (List (Int × Int)) :=
  edges.filter fun edges => edges.length ≤ maxEdges

def readStackoverflowData (mem : Nat → Nat → Byte) (fuel : Nat) (file : List Byte) : Option (List (Int × Int)) :=
  intoArrays (readEdges 0 0 mem fuel file)

def readWikiData (mem : Nat → Nat → Byte) (fuel : Nat) (file : List Byte) : Option (List (Int × Int)) :=
  intoArrays (readEdges 1 0 mem fuel file)

def readNotreDameData (mem : Nat → Nat → Byte) (fuel : Nat) (file : List Byte) : Option (List (Int × Int)) :=
  intoArrays (readEdges 4 1 mem fuel file)

/-- What `LoadData` leaves in the members of `GeneralGraph`. -/
structure GeneralGraph where
  asrc : List Int
  adst : List Int
  cnt : Nat
  maxVertex : Int
  vertex : Finset Int

def GeneralGraph.of (edges : List (Int × Int)) : GeneralGraph where
  asrc := edges.map Prod.fst
  adst := edges.map Prod.snd
  cnt := edges.length
  maxVertex := edges.foldl (fun m e => max e.2 (max e.1 m)) 0
  vertex := (edges.flatMap fun e => [e.1, e.2]).toFinset

/-- In the end it prints `asrc[5]` and `adst[5]`. -/
def loadData (mem : Nat → Nat → Byte) (fuel : Nat) (file : List Byte) : Option GeneralGraph :=
  (readEdges 1 0 mem fuel file).bind fun edges => if 5 < edges.length then some (GeneralGraph.of edges) else none

end Scanning

section Commas

/-- Fields up to a comma and up to the end of the line. At the end of the file `dst` is empty. -/
def readFields : Nat → List Byte → Option (List (Int × Int))
  | 0, _ => none
  | fuel + 1, file =>
      match getlineTo 44 file with
      | none => some []
      | some (src, rest) =>
          let (dst, rest) := (getlineTo 10 rest).getD ([], rest)
          (stoi src).bind fun src => (stoi dst).bind fun dst => (readFields fuel rest).map ((src, dst) :: ·)

/-- `read_sparse_data` and `read_CuckooGraph_data` -/
def readSparseData (fuel : Nat) (file : List Byte) : Option (List (Int × Int)) := intoArrays (readFields fuel file)

end Commas

section Writing

/-- A line of the extract tool and of `SparseGenerator`. -/
def spaced (e : Nat × Nat) : List Byte := decimal e.1 ++ 32 :: decimal e.2 ++ [32, 48]

/-- A line of `make_dataset`, `make_dataset_new` and `make_sparse_dataset`. -/
def commaed (e : Nat × Nat) : List Byte := decimal e.1 ++ 44 :: decimal e.2

/-- Each line ends with `endl`. -/
def write (line : Nat × Nat → List Byte) (edges : List (Nat × Nat)) : List Byte := edges.flatMap fun e => line e ++ [10]

end Writing

section Numbers

theorem digit_toNat {d : Nat} (low : d < 10) : (UInt8.ofNat (48 + d)).toNat = 48 + d := by
  rw [UInt8.toNat_ofNat']
  omega

theorem isDigit_iff {c : Byte} : isDigit c = true ↔ 48 ≤ c.toNat ∧ c.toNat ≤ 57 := by
  simp only [isDigit, Bool.and_eq_true, decide_eq_true_eq, UInt8.le_iff_toNat_le]
  rfl

theorem decimal_digits (n : Nat) : ∀ c ∈ decimal n, isDigit c = true := by
  intro c hc
  rw [decimal] at hc
  split at hc
  · rw [List.mem_singleton.mp hc]
    decide
  · obtain ⟨d, hd, rfl⟩ := List.mem_map.mp hc
    have low := Nat.digits_lt_base (by decide) (List.mem_reverse.mp hd)
    rw [isDigit_iff, digit_toNat low]
    omega

theorem decimal_ne_nil (n : Nat) : decimal n ≠ [] := by
  rw [decimal]
  split
  · exact List.cons_ne_nil _ _
  · rename_i some
    intro empty
    exact Nat.digits_ne_nil_iff_ne_zero.mpr some (List.reverse_eq_nil_iff.mp (List.map_eq_nil_iff.mp empty))

theorem decimal_length {n : Nat} (small : n < 2 ^ 31) : (decimal n).length ≤ 10 := by
  rw [decimal]
  split
  · decide
  · rw [List.length_map, List.length_reverse, Nat.digits_length_le_iff (by decide)]
    omega

/-- The digits of a number stand for it. -/
theorem value_decimal (n : Nat) : value (decimal n) = n := by
  rw [decimal]
  split
  · rename_i zero
    rw [zero]
    rfl
  · have digits : ∀ l : List Nat, (∀ d ∈ l, d < 10) →
        value (l.reverse.map fun d => UInt8.ofNat (48 + d)) = Nat.ofDigits 10 l := by
      intro l low
      induction l with
      | nil => rfl
      | cons d l ih =>
          have rest := ih fun x hx => low x (List.mem_cons_of_mem d hx)
          have here := digit_toNat (low d List.mem_cons_self)
          rw [value] at rest ⊢
          rw [List.reverse_cons, List.map_append, List.foldl_append, rest, List.map_cons, List.map_nil, List.foldl_cons,
            List.foldl_nil, here, Nat.ofDigits_cons, Nat.add_sub_cancel_left, Nat.add_comm]
    rw [digits _ fun d hd => Nat.digits_lt_base (by decide) hd, Nat.ofDigits_digits]

/-- `stoi` of a run of digits. -/
theorem stoi_digits {ds : List Byte} (all : ∀ c ∈ ds, isDigit c = true) (some' : ds ≠ []) (small : value ds < 2 ^ 31) :
    stoi ds = some (value ds : Int) := by
  obtain ⟨c, rest, rfl⟩ := List.exists_cons_of_ne_nil some'
  have digit := isDigit_iff.mp (all c List.mem_cons_self)
  have first : ∀ x : Byte, x.toNat < 48 → c ≠ x := by
    rintro x low rfl
    omega
  have space : isspace c = false := by
    have high : ¬ c ≤ 13 := by
      rw [UInt8.le_iff_toNat_le]
      have thirteen : (13 : UInt8).toNat = 13 := rfl
      omega
    simp [isspace, first 32 (by decide), high]
  have run : (c :: rest).takeWhile isDigit = c :: rest := List.takeWhile_eq_self_iff.mpr all
  have minus : (c :: rest).head? ≠ some 45 := fun same => first 45 (by decide) (Option.some.inj same)
  have plus : (c :: rest).head? ≠ some 43 := fun same => first 43 (by decide) (Option.some.inj same)
  have bound : (-2 ^ 31 : Int) ≤ value (c :: rest) ∧ (value (c :: rest) : Int) < 2 ^ 31 := by omega
  simp only [stoi, List.dropWhile_cons_of_neg (Bool.eq_false_iff.mp space), if_neg minus,
    if_neg (not_or.mpr ⟨minus, plus⟩), run, if_neg some', if_pos bound]

theorem stoi_decimal {n : Nat} (small : n < 2 ^ 31) : stoi (decimal n) = some (n : Int) := by
  have number := value_decimal n
  rw [stoi_digits (decimal_digits n) (decimal_ne_nil n) (number.symm ▸ small), number]

end Numbers

section Lines

/-- The lines of a file. -/
def linesOf : List Byte → List (List Byte)
  | [] => []
  | c :: file =>
      if c = 10 then [] :: linesOf file
      else
        match linesOf file with
        | [] => [[c]]
        | line :: lines => (c :: line) :: lines

theorem linesOf_ne_nil {c : Byte} {file : List Byte} : linesOf (c :: file) ≠ [] := by
  rw [linesOf]
  split
  · exact List.cons_ne_nil _ _
  · split <;> exact List.cons_ne_nil _ _

/-- A line is taken off the file. -/
theorem getlineTo_linesOf {line : List Byte} {file : List Byte} {lines : List (List Byte)}
    (all : linesOf file = line :: lines) : ∃ rest, getlineTo 10 file = some (line, rest) ∧ linesOf rest = lines := by
  induction file generalizing line lines with
  | nil => cases all
  | cons c file ih =>
      by_cases stop : c = 10
      · subst stop
        rw [linesOf, if_pos rfl] at all
        obtain ⟨rfl, rfl⟩ := List.cons.inj all
        exact ⟨file, by simp [getlineTo], rfl⟩
      · rw [linesOf, if_neg stop] at all
        cases file with
        | nil =>
            obtain ⟨rfl, rfl⟩ := List.cons.inj all
            exact ⟨[], by simp [getlineTo, stop], rfl⟩
        | cons d file =>
            obtain ⟨line', lines', next⟩ := List.exists_cons_of_ne_nil (@linesOf_ne_nil d file)
            rw [next] at all
            obtain ⟨rfl, rfl⟩ := List.cons.inj all
            obtain ⟨rest, taken, left⟩ := ih next
            refine ⟨rest, ?_, left⟩
            simp only [getlineTo, List.cons_ne_nil, if_false, Option.some.injEq, Prod.mk.injEq] at taken ⊢
            have on : (decide (c ≠ 10)) = true := decide_eq_true stop
            rw [List.takeWhile_cons, List.dropWhile_cons, if_pos on, if_pos on, taken.1, taken.2]
            exact ⟨rfl, rfl⟩

theorem linesOf_nil {file : List Byte} (none : linesOf file = []) : file = [] := by
  cases file with
  | nil => rfl
  | cons c file => exact absurd none linesOf_ne_nil

/-- A line with two numbers, which fits into the buffer. -/
structure Edged (off : Nat) (line : List Byte) : Prop where
  short : line.length < 50
  two : secondRun line ≠ []
  src : value (firstRun line) + off < 2 ^ 31
  dst : value (secondRun line) + off < 2 ^ 31

instance (off : Nat) (line : List Byte) : Decidable (Edged off line) :=
  decidable_of_iff (line.length < 50 ∧ secondRun line ≠ [] ∧ value (firstRun line) + off < 2 ^ 31 ∧
      value (secondRun line) + off < 2 ^ 31)
    ⟨fun h => ⟨h.1, h.2.1, h.2.2.1, h.2.2.2⟩, fun h => ⟨h.short, h.two, h.src, h.dst⟩⟩

/-- An edge as it is stored, with what is added to the ids. -/
def stored (off : Nat) (e : Nat × Nat) : Int × Int := ((e.1 + off : Nat), (e.2 + off : Nat))

/-- The edge on a line. -/
def edgeOn (off : Nat) (line : List Byte) : Int × Int := stored off (value (firstRun line), value (secondRun line))

theorem parseLine_edged {off : Nat} {line : List Byte} (edged : Edged off line) (s : Nat → Byte) :
    ∃ enough, ∀ fuel, enough ≤ fuel → parseLine off s fuel line = some (edgeOn off line) := by
  obtain ⟨enough, c, done, -, src, dst⟩ := parses_alone edged.short (.inl edged.two) s
  have one : firstRun line ≠ [] := by
    intro none
    have two := edged.two
    rw [secondRun, afterRun_nil none] at two
    exact two rfl
  have digits : ∀ l : List Byte, ∀ x ∈ firstRun l, isDigit x = true := fun l x hx => List.mem_takeWhile_imp hx
  have low := edged.src
  have low' := edged.dst
  have fits : (value (firstRun line) : Int) + off < 2 ^ 31 ∧ (value (secondRun line) : Int) + off < 2 ^ 31 := by omega
  have first := stoi_digits (digits line) one (by omega)
  have second : stoi (secondRun line) = _ :=
    stoi_digits (digits (afterRun line)) edged.two (by rw [secondRun] at low'; omega)
  refine ⟨enough, fun fuel more => ?_⟩
  rw [parseLine, if_pos edged.short, done fuel more, Option.bind_some, src, dst, first, Option.bind_some, second,
    Option.bind_some, shift]
  exact if_pos fits

theorem readLines_edged {off : Nat} (mem : Nat → Nat → Byte) {lines : List (List Byte)}
    (edged : ∀ line ∈ lines, Edged off line) {file : List Byte} (all : linesOf file = lines) (i : Nat) :
    ∃ enough, ∀ scan, enough ≤ scan → ∀ fuel, enough ≤ fuel →
      readLines off mem scan fuel i file = some (lines.map (edgeOn off)) := by
  induction lines generalizing file i with
  | nil =>
      refine ⟨1, fun scan _ fuel enough => ?_⟩
      obtain ⟨fuel, rfl⟩ := Nat.exists_eq_succ_of_ne_zero (Nat.ne_of_gt enough)
      rw [linesOf_nil all, readLines]
      rfl
  | cons line lines ih =>
      obtain ⟨rest, taken, left⟩ := getlineTo_linesOf all
      obtain ⟨first, parsed⟩ := parseLine_edged (edged line List.mem_cons_self) (mem i)
      obtain ⟨later, read⟩ := ih (fun l hl => edged l (List.mem_cons_of_mem line hl)) left (i + 1)
      refine ⟨max first later + 1, fun scan enough fuel enough' => ?_⟩
      obtain ⟨fuel, rfl⟩ := Nat.exists_eq_succ_of_ne_zero (Nat.ne_of_gt (Nat.zero_lt_of_lt enough'))
      rw [readLines, taken]
      simp only
      rw [parsed scan (by omega), Option.bind_some, read scan (by omega) fuel (by omega)]
      rfl

theorem useless_lines {n : Nat} {file : List Byte} (short : ∀ line ∈ (linesOf file).take n, line.length < 50) :
    ∃ rest, useless n file = some rest ∧ linesOf rest = (linesOf file).drop n := by
  induction n generalizing file with
  | zero => exact ⟨file, rfl, rfl⟩
  | succ n ih =>
      cases all : linesOf file with
      | nil =>
          refine ⟨file, ?_, by rw [all, List.drop_nil]⟩
          rw [linesOf_nil all]
          rfl
      | cons line lines =>
          rw [all, List.take_succ_cons] at short
          obtain ⟨rest, taken, left⟩ := getlineTo_linesOf all
          rw [← left] at short
          obtain ⟨end', passed, same⟩ := ih fun l hl => short l (List.mem_cons_of_mem line hl)
          refine ⟨end', ?_, by rw [same, left, List.drop_succ_cons]⟩
          rw [useless, taken]
          simp only
          rw [if_pos (short line List.mem_cons_self), passed]

/-- A reader gets the first two numbers of each line behind its header. -/
theorem readEdges_lines {header off : Nat} (mem : Nat → Nat → Byte) {file : List Byte}
    (short : ∀ line ∈ (linesOf file).take header, line.length < 50)
    (edged : ∀ line ∈ (linesOf file).drop header, Edged off line) : ∃ enough, ∀ fuel, enough ≤ fuel →
      readEdges header off mem fuel file = some (((linesOf file).drop header).map (edgeOn off)) := by
  obtain ⟨rest, passed, left⟩ := useless_lines short
  obtain ⟨enough, read⟩ := readLines_edged mem edged left 0
  refine ⟨enough, fun fuel more => ?_⟩
  rw [readEdges, passed, Option.bind_some, read fuel more fuel more]

theorem intoArrays_some {edges : List (Int × Int)} (few : edges.length ≤ maxEdges) :
    intoArrays (some edges) = some edges := Option.filter_some_pos (decide_eq_true few)

/-- The three readers, on files for which the arrays are long enough. `web-NotreDame.txt` counts from 0. -/
theorem readers_lines (mem : Nat → Nat → Byte) (file : List Byte) :
    ((linesOf file).length ≤ maxEdges → (∀ line ∈ linesOf file, Edged 0 line) → ∃ enough, ∀ fuel, enough ≤ fuel →
      readStackoverflowData mem fuel file = some ((linesOf file).map (edgeOn 0))) ∧
    ((linesOf file).length ≤ maxEdges + 1 → (∀ line ∈ (linesOf file).take 1, line.length < 50) →
      (∀ line ∈ (linesOf file).drop 1, Edged 0 line) →
        ∃ enough, ∀ fuel, enough ≤ fuel → readWikiData mem fuel file = some (((linesOf file).drop 1).map (edgeOn 0))) ∧
    ((linesOf file).length ≤ maxEdges + 4 → (∀ line ∈ (linesOf file).take 4, line.length < 50) →
      (∀ line ∈ (linesOf file).drop 4, Edged 1 line) → ∃ enough, ∀ fuel, enough ≤ fuel →
        readNotreDameData mem fuel file = some (((linesOf file).drop 4).map (edgeOn 1))) := by
  have reader : ∀ header off, (linesOf file).length ≤ maxEdges + header →
      (∀ line ∈ (linesOf file).take header, line.length < 50) → (∀ line ∈ (linesOf file).drop header, Edged off line) →
        ∃ enough, ∀ fuel, enough ≤ fuel → intoArrays (readEdges header off mem fuel file) =
          some (((linesOf file).drop header).map (edgeOn off)) := by
    intro header off few short edged
    obtain ⟨enough, read⟩ := readEdges_lines mem short edged
    refine ⟨enough, fun fuel more => ?_⟩
    rw [read fuel more]
    refine intoArrays_some ?_
    rw [List.length_map, List.length_drop]
    omega
  exact ⟨fun few edged => reader 0 0 few (fun line hl => absurd hl List.not_mem_nil) edged, reader 1 0, reader 4 1⟩

theorem readers_lines_two : ∃ enough, ∀ fuel, enough ≤ fuel →
    readNotreDameData (fun _ _ => 0) fuel [35, 10, 35, 10, 35, 10, 35, 10, 48, 9, 49, 50, 10, 55, 32, 51] =
      some [(1, 13), (8, 4)] :=
  (readers_lines (fun _ _ => 0) [35, 10, 35, 10, 35, 10, 35, 10, 48, 9, 49, 50, 10, 55, 32, 51]).2.2
    (by decide) (by decide) (by decide)

end Lines

section RoundTrips

/-- No line is broken. -/
theorem linesOf_write {line : Nat × Nat → List Byte} {edges : List (Nat × Nat)} (whole : ∀ e ∈ edges, 10 ∉ line e) :
    linesOf (write line edges) = edges.map line := by
  have one : ∀ l file : List Byte, 10 ∉ l → linesOf (l ++ 10 :: file) = l :: linesOf file := by
    intro l file clean
    induction l with
    | nil => rw [List.nil_append, linesOf, if_pos rfl]
    | cons c l ih =>
        have other : c ≠ 10 := fun same => clean (same ▸ List.mem_cons_self)
        rw [List.cons_append, linesOf, if_neg other, ih fun inside => clean (List.mem_cons_of_mem c inside)]
  induction edges with
  | nil => rfl
  | cons e edges ih =>
      rw [write, List.flatMap_cons, List.append_assoc, List.singleton_append, one _ _ (whole e List.mem_cons_self),
        List.map_cons]
      exact congrArg _ (ih fun e' he' => whole e' (List.mem_cons_of_mem e he'))

theorem firstRun_digits {ds rest : List Byte} {c : Byte} (all : ∀ x ∈ ds, isDigit x = true) (some : ds ≠ [])
    (stop : isDigit c = false) : firstRun (ds ++ c :: rest) = ds ∧ afterRun (ds ++ c :: rest) = c :: rest := by
  have start : (ds ++ c :: rest).dropWhile (fun x => !isDigit x) = ds ++ c :: rest := by
    obtain ⟨x, ds, rfl⟩ := List.exists_cons_of_ne_nil some
    rw [List.cons_append, List.dropWhile_cons_of_neg (by simp [all x List.mem_cons_self])]
  have off : ¬ isDigit c = true := by simp [stop]
  rw [firstRun, afterRun, start, List.takeWhile_append_of_pos all, List.dropWhile_append_of_pos all,
    List.takeWhile_cons_of_neg off, List.dropWhile_cons_of_neg off, List.append_nil]
  exact ⟨rfl, rfl⟩

theorem spaced_runs (e : Nat × Nat) : firstRun (spaced e) = decimal e.1 ∧ secondRun (spaced e) = decimal e.2 := by
  have first := @firstRun_digits (decimal e.1) (decimal e.2 ++ [32, 48]) 32 (decimal_digits e.1)
    (decimal_ne_nil e.1) (by decide)
  have second := @firstRun_digits (decimal e.2) [48] 32 (decimal_digits e.2) (decimal_ne_nil e.2) (by decide)
  have skip : ∀ l : List Byte, firstRun (32 :: l) = firstRun l := fun l => by
    rw [firstRun, List.dropWhile_cons_of_pos (by decide), firstRun]
  rw [spaced, secondRun, List.append_assoc, List.cons_append, first.1, first.2, skip, second.1]
  exact ⟨rfl, rfl⟩

theorem spaced_edged {off : Nat} {e : Nat × Nat} (first : e.1 + off < 2 ^ 31) (second : e.2 + off < 2 ^ 31) :
    Edged off (spaced e) ∧ edgeOn off (spaced e) = stored off e := by
  obtain ⟨run1, run2⟩ := spaced_runs e
  have length1 := @decimal_length e.1 (by omega)
  have length2 := @decimal_length e.2 (by omega)
  refine ⟨⟨?_, ?_, ?_, ?_⟩, ?_⟩
  · simp only [spaced, List.length_append, List.length_cons, List.length_nil]
    omega
  · rw [run2]
    exact decimal_ne_nil e.2
  · rwa [run1, value_decimal]
  · rwa [run2, value_decimal]
  · rw [edgeOn, run1, run2, value_decimal, value_decimal]

/-- A reader gets the edges which have been written with blanks, but for as many as it takes for a header. -/
theorem readEdges_spaced (header off : Nat) (mem : Nat → Nat → Byte) {edges : List (Nat × Nat)}
    (small : ∀ e ∈ edges, e.1 + off < 2 ^ 31 ∧ e.2 + off < 2 ^ 31) : ∃ enough, ∀ fuel, enough ≤ fuel →
      readEdges header off mem fuel (write spaced edges) =
        some ((edges.drop header).map (stored off)) := by
  have edged : ∀ e ∈ edges, Edged off (spaced e) ∧ edgeOn off (spaced e) = stored off e :=
    fun e he => spaced_edged (small e he).1 (small e he).2
  have clean : ∀ e ∈ edges, 10 ∉ spaced e := by
    intro e _ inside
    have digit : ∀ n, 10 ∉ decimal n := fun n here => absurd (decimal_digits n 10 here) (by decide)
    simp [spaced, digit] at inside
  have lines := linesOf_write clean
  have read := @readEdges_lines header off mem (write spaced edges) (fun line hl => ?_) fun line hl => ?_
  · rw [lines, ← List.map_drop, List.map_map] at read
    have same : (edges.drop header).map (edgeOn off ∘ spaced) = (edges.drop header).map (stored off) :=
      List.map_congr_left fun e he => (edged e (List.mem_of_mem_drop he)).2
    obtain ⟨enough, done⟩ := read
    exact ⟨enough, fun fuel more => (done fuel more).trans (congrArg some same)⟩
  · rw [lines, ← List.map_take] at hl
    obtain ⟨e, he, rfl⟩ := List.mem_map.mp hl
    exact (edged e (List.mem_of_mem_take he)).1.short
  · rw [lines, ← List.map_drop] at hl
    obtain ⟨e, he, rfl⟩ := List.mem_map.mp hl
    exact (edged e (List.mem_of_mem_drop he)).1

/-- A field which is written is read. -/
theorem getlineTo_field {l : List Byte} {delim : Byte} (clean : delim ∉ l) (rest : List Byte) :
    getlineTo delim (l ++ delim :: rest) = some (l, rest) := by
  have all : ∀ x ∈ l, decide (x ≠ delim) = true := fun x hx => decide_eq_true fun same => clean (same ▸ hx)
  have stop : ¬ decide (delim ≠ delim) = true := by simp
  rw [getlineTo, if_neg (by simp), List.takeWhile_append_of_pos all, List.dropWhile_append_of_pos all, List.takeWhile_cons,
    List.dropWhile_cons, if_neg stop, if_neg stop, List.append_nil, List.drop_one, List.tail_cons]

theorem readFields_commaed {edges : List (Nat × Nat)} (small : ∀ e ∈ edges, e.1 < 2 ^ 31 ∧ e.2 < 2 ^ 31) {fuel : Nat}
    (enough : edges.length < fuel) :
    readFields fuel (write commaed edges) = some (edges.map fun e => ((e.1 : Int), (e.2 : Int))) := by
  have none : ∀ (c : Byte) (n : Nat), isDigit c = false → c ∉ decimal n := fun c n other here => by
    rw [decimal_digits n c here] at other
    cases other
  induction edges generalizing fuel with
  | nil =>
      obtain ⟨fuel, rfl⟩ := Nat.exists_eq_succ_of_ne_zero (Nat.ne_of_gt enough)
      rfl
  | cons e edges ih =>
      rw [List.length_cons] at enough
      obtain ⟨fuel, rfl⟩ := Nat.exists_eq_succ_of_ne_zero (Nat.ne_of_gt (Nat.zero_lt_of_lt enough))
      obtain ⟨first, second⟩ := small e List.mem_cons_self
      have line : write commaed (e :: edges) = decimal e.1 ++ 44 :: (decimal e.2 ++ 10 :: write commaed edges) := by
        simp [write, commaed]
      rw [readFields, line, getlineTo_field (none 44 e.1 (by decide))]
      simp only
      rw [getlineTo_field (none 10 e.2 (by decide)), Option.getD_some]
      simp only
      rw [stoi_decimal first, Option.bind_some, stoi_decimal second, Option.bind_some,
        ih (fun e' he' => small e' (List.mem_cons_of_mem e he')) (by omega)]
      rfl

/-- What has been written with commas comes back as it was, if the arrays are long enough. -/
theorem readSparseData_commaed {edges : List (Nat × Nat)} (few : edges.length ≤ maxEdges)
    (small : ∀ e ∈ edges, e.1 < 2 ^ 31 ∧ e.2 < 2 ^ 31) {fuel : Nat} (enough : edges.length < fuel) :
    readSparseData fuel (write commaed edges) = some (edges.map fun e => ((e.1 : Int), (e.2 : Int))) := by
  rw [readSparseData, readFields_commaed small enough]
  exact intoArrays_some (by rwa [List.length_map])

theorem readSparseData_commaed_two : readSparseData 3 (write commaed [(1, 2), (30, 4)]) = some [(1, 2), (30, 4)] :=
  readSparseData_commaed (by decide) (by decide) (by decide)

end RoundTrips

section Extracted

open ExtractSubGraph Numbering

/-- The new ids are `int`s. -/
theorem extract_small {maxVertex k : Nat} {edges lines : List (Nat × Nat)} {chosen : Finset Nat}
    (done : extract maxVertex k edges = some (chosen, lines)) : ∀ e ∈ lines, e.1 < 2 ^ 31 ∧ e.2 < 2 ^ 31 := by
  obtain ⟨degree, -, rest⟩ := Option.bind_eq_some_iff.mp done
  obtain ⟨s, renamed, same⟩ := Option.map_eq_some_iff.mp rest
  obtain ⟨rfl, rfl⟩ := Prod.mk.inj same
  rw [rename_eq, named] at renamed
  obtain ⟨next, few, rfl⟩ := Option.map_eq_some_iff.mp renamed
  have bound := (incr_eq_some.mp few).1
  have low : ∀ v ∈ ends (induced (choose k degree) edges),
      number (firsts (ends (induced (choose k degree) edges))) v < 2 ^ 31 := by
    intro v hv
    have inside := List.idxOf_lt_length_of_mem (mem_firsts.mpr hv)
    rw [number]
    omega
  intro e he
  obtain ⟨x, hx, rfl⟩ := List.mem_map.mp he
  exact ⟨low _ (mem_ends.mpr ⟨x, hx, .inl rfl⟩), low _ (mem_ends.mpr ⟨x, hx, .inr rfl⟩)⟩

/-- `LoadData` on the file of the extract tool passes over the first edge: there is no header. It reads
    `asrc[5]` behind the end if fewer than seven edges have been written. -/
theorem loadData_extract {maxVertex k : Nat} {edges lines : List (Nat × Nat)} {chosen : Finset Nat}
    (done : extract maxVertex k edges = some (chosen, lines)) (mem : Nat → Nat → Byte) : ∃ enough, ∀ fuel, enough ≤ fuel →
      loadData mem fuel (write spaced lines) =
        if 6 < lines.length then some (GeneralGraph.of (lines.tail.map (stored 0))) else none := by
  obtain ⟨enough, read⟩ := readEdges_spaced 1 0 mem (extract_small done)
  refine ⟨enough, fun fuel more => ?_⟩
  rw [loadData, read fuel more, Option.bind_some, List.drop_one, List.length_map, List.length_tail]
  by_cases many : 6 < lines.length
  · rw [if_pos many, if_pos (by omega)]
  · rw [if_neg many, if_neg (by omega)]

theorem loadData_extract_seven : ∃ enough, ∀ fuel, enough ≤ fuel →
    loadData (fun _ _ => 0) fuel (write spaced [(1, 2), (2, 1), (2, 2), (1, 2), (1, 2), (1, 2), (2, 1)]) =
      some (GeneralGraph.of [(2, 1), (2, 2), (1, 2), (1, 2), (1, 2), (2, 1)]) := by
  have done : extract 1 2 [(0, 1), (1, 0), (1, 1), (0, 1), (0, 1), (0, 1), (1, 0)] =
      some ({0, 1}, [(1, 2), (2, 1), (2, 2), (1, 2), (1, 2), (1, 2), (2, 1)]) := by decide
  exact loadData_extract done fun _ _ => 0

end Extracted

end EdgeFiles

end CuckooGraph
