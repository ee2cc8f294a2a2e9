import ClauseLearning.Proofs.Construction.Acceptance
import ClauseLearning.Proofs.Dimacs.RoundTrip

/-!
# The layout of a text does not matter

The numbers of a text may be spread over its lines in any way: a clause may go on over several
lines and share them with others, and comments, problem lines and blank lines may come between.
What follows a line that ends the data need not even be text.

Main statement: every text that spells clauses is read as the formula of these clauses. All that the
layout contributes is the number of variables that the last problem line declares.
-/

namespace ClauseLearning.Dimacs

open Text

/-! ### Texts that spell clauses -/

/-- A line that is read on from: the number of variables that it declares, if any, the numbers that
it holds, and its text. A blank line holds no numbers. -/
inductive Row : Option Nat → List Int → List Char → Prop where
  | comment {gap rest : List Char} (blank : Blank gap) : Row none [] (gap ++ 'c' :: rest)
  | problem {text count size : List Char} {n m : Nat}
      (separated : Separated [['p'], ['c', 'n', 'f'], count, size] text)
      (declares : Natural count n) (inside : n ≤ Formula.maxVars)
      (counts : Natural size m) (counted : m ≤ Word.greatest) : Row (some n) [] text
  | numbers {text : List Char} {tokens : List (List Char)} {numbers : List Int}
      (separated : Separated tokens text) (denote : List.Forall₂ Integer tokens numbers) :
      Row none numbers text

/-- The bytes of a text: the number of variables declared last, the numbers in all its lines, and
the bytes. Data may be ended by a line that starts with `%`, and then any bytes may follow. -/
inductive Layout : Option Nat → List Int → List UInt8 → Prop where
  | nil : Layout none [] []
  | last {declared : Option Nat} {numbers : List Int} {text : List Char}
      (row : Row declared numbers text) (no_feed : '\n' ∉ text) (nonempty : text ≠ []) :
      Layout declared numbers (encode text)
  | line {first later : Option Nat} {numbers others : List Int} {text : List Char}
      {bytes rest : List UInt8} (row : Row first numbers text) (ended : Ended text bytes)
      (more : Layout later others rest) :
      Layout (later.or first) (numbers ++ others) (bytes ++ rest)
  | lastStop {gap text : List Char} (blank : Blank gap) (no_feed : '\n' ∉ gap ++ '%' :: text) :
      Layout none [] (encode (gap ++ '%' :: text))
  | stop {gap text : List Char} {bytes : List UInt8} (blank : Blank gap)
      (ended : Ended (gap ++ '%' :: text) bytes) (rest : List UInt8) :
      Layout none [] (bytes ++ rest)

/-- A clause with the 0 that ends it. -/
def withZero (c : List Int) : List Int :=
  c ++ [0]

/-- The numbers of clauses, each of them ended by 0. A last clause that has literals may lack its
0. -/
inductive Spells : List (List Int) → List Int → Prop where
  | closed (clauses : List (List Int)) : Spells clauses (clauses.flatMap withZero)
  | unclosed (clauses : List (List Int)) {c : List Int} (nonempty : c ≠ []) :
      Spells (clauses ++ [c]) (clauses.flatMap withZero ++ c)

theorem Spells.inRange {clauses : List (List Int)} {numbers : List Int}
    (spells : Spells clauses numbers) (inRange : ∀ c ∈ clauses, ∀ z ∈ c, Literal.InRange z) :
    ∀ z ∈ numbers, Literal.InRange z := by
  have of_closed : ∀ {clauses : List (List Int)}, (∀ c ∈ clauses, ∀ z ∈ c, Literal.InRange z) →
      ∀ z ∈ clauses.flatMap withZero, Literal.InRange z := by
    intro clauses inRange z member
    obtain ⟨c, c_mem, among⟩ := List.mem_flatMap.1 member
    rcases List.mem_append.1 among with in_clause | zero
    · exact inRange c c_mem z in_clause
    · rw [List.mem_singleton.1 zero]
      exact ⟨by decide, by decide⟩
  cases spells with
  | closed => exact of_closed inRange
  | unclosed clauses nonempty =>
    obtain ⟨inRange, last⟩ := List.forall_mem_append.1 inRange
    exact List.forall_mem_append.2 ⟨of_closed inRange, List.forall_mem_singleton.1 last⟩

/-! ### Lines -/

theorem ofText_comment {gap : List Char} (blank : Blank gap) (rest : List Char) :
    Line.ofText (gap ++ 'c' :: rest) = .comment := by
  rw [ofText_gap blank, Line.ofText, dropBlank_of_solid rfl]
  rfl

theorem ofText_stop {gap : List Char} (blank : Blank gap) (rest : List Char) :
    Line.ofText (gap ++ '%' :: rest) = .stop := by
  rw [ofText_gap blank, Line.ofText, dropBlank_of_solid rfl]
  rfl

theorem ofText_problem {text : List Char} {ws : List (List Char)}
    (separated : Separated (['p'] :: ws) text) : Line.ofText text = .problem ws := by
  cases separated with
  | @cons gap _ rest _ blank isWord apart others =>
    have read : words (['p'] ++ rest) = ['p'] :: ws := by
      rw [words_word isWord apart, words_of_separated others]
    have kind : Line.ofText (['p'] ++ rest) = .problem ((words (['p'] ++ rest)).drop 1) := by
      rw [Line.ofText, List.singleton_append, dropBlank_of_solid rfl]
      rfl
    rw [ofText_gap blank, kind, read]
    rfl

theorem ofText_of_integers {text : List Char} {tokens : List (List Char)} {numbers : List Int}
    (separated : Separated tokens text) (denote : List.Forall₂ Integer tokens numbers) :
    Line.ofText text = .numbers tokens := by
  cases separated with
  | nil blank =>
    rw [← List.append_nil text, ofText_gap blank]
    rfl
  | @cons gap word rest ws blank isWord apart others =>
    have read : words (word ++ rest) = word :: ws := by
      rw [words_word isWord apart, words_of_separated others]
    cases denote with
    | cons integer _ =>
      -- The first token decides what the line is, and no numeral starts with a letter or with `%`.
      obtain ⟨c, more, rfl, starts⟩ := integer.exists_cons
      rw [ofText_gap blank, List.cons_append, ofText_numbers starts, ← List.cons_append, read]

theorem readProblem_eq_ok {count size : List Char} {n m : Nat} (declares : Natural count n)
    (inside : n ≤ Formula.maxVars) (counts : Natural size m) (counted : m ≤ Word.greatest) :
    readProblem [['c', 'n', 'f'], count, size] = .ok n := by
  have declared : n ≤ Word.greatest := Nat.le_trans inside (by decide)
  simp [readProblem, checkClauseCount, readNatural_eq_ok declares declared,
    readNatural_eq_ok counts counted]

namespace Draft

/-! ### What a line adds to a draft -/

/-- The draft after a declaration, if there is one, and some numbers. -/
def add (d : Draft) (declared : Option Nat) (numbers : List Int) : Draft :=
  numbers.foldl take { d with declared := declared.or d.declared }

/-- Numbers do not look at what has been declared. -/
theorem foldl_take_declared (numbers : List Int) (declared : Option Nat) :
    ∀ d : Draft, numbers.foldl take { d with declared } =
      { numbers.foldl take d with declared } := by
  induction numbers with
  | nil => exact fun d => rfl
  | cons z rest ih =>
    intro d
    rw [List.foldl_cons, List.foldl_cons, ← ih (d.take z)]
    congr 1
    unfold take
    split <;> rfl

theorem add_nil (d : Draft) : d.add none [] = d :=
  rfl

theorem add_add (d : Draft) (first later : Option Nat) (numbers others : List Int) :
    (d.add first numbers).add later others = d.add (later.or first) (numbers ++ others) := by
  have here := foldl_take_declared numbers (first.or d.declared) d
  have both := foldl_take_declared numbers ((later.or first).or d.declared) d
  rw [add, add, add, here, List.foldl_append, both, Option.or_assoc]

theorem takeTokens_integers {tokens : List (List Char)} {numbers : List Int}
    (denote : List.Forall₂ Integer tokens numbers) (inRange : ∀ z ∈ numbers, Literal.InRange z) :
    ∀ d : Draft, d.takeTokens tokens = .ok (numbers.foldl take d) := by
  induction denote with
  | nil => exact fun d => rfl
  | cons integer _ ih =>
    intro d
    obtain ⟨first, others⟩ := List.forall_mem_cons.1 inRange
    rw [takeTokens, readNumber_eq_ok integer first]
    exact ih others _

/-- A line is read on from with what it declares and holds. -/
theorem takeLines_row {declared : Option Nat} {numbers : List Int} {text : List Char}
    (row : Row declared numbers text) (inRange : ∀ z ∈ numbers, Literal.InRange z) (d : Draft)
    (number : Nat) (rest : List (List UInt8)) :
    d.takeLines number (encode text :: rest) =
      (d.add declared numbers).takeLines (number + 1) rest := by
  rw [takeLines, decode?_encode]
  cases row with
  | comment blank =>
    simp only [ofText_comment blank]
    rfl
  | problem separated declares inside counts counted =>
    simp only [ofText_problem separated, readProblem_eq_ok declares inside counts counted]
    rfl
  | numbers separated denote =>
    simp only [ofText_of_integers separated denote, takeTokens_integers denote inRange]
    rfl

theorem takeLines_stop {gap : List Char} (blank : Blank gap) (text : List Char) (d : Draft)
    (number : Nat) (rest : List (List UInt8)) :
    d.takeLines number (encode (gap ++ '%' :: text) :: rest) = .ok d := by
  rw [takeLines, decode?_encode]
  simp only [ofText_stop blank]

/-- Reading a text adds what it declares last and all its numbers. -/
theorem takeLines_layout {declared : Option Nat} {numbers : List Int} {bytes : List UInt8}
    (layout : Layout declared numbers bytes) (inRange : ∀ z ∈ numbers, Literal.InRange z) :
    ∀ (d : Draft) (number : Nat),
      d.takeLines number (lines bytes) = .ok (d.add declared numbers) := by
  -- Along the lines of the layout; the draft is general, since each line hands on a fuller one.
  induction layout with
  | nil => exact fun d number => rfl
  | last row no_feed nonempty =>
    intro d number
    rw [lines_encode_of_ne_nil no_feed nonempty, takeLines_row row inRange]
    rfl
  | line row ended _ ih =>
    intro d number
    obtain ⟨here, later⟩ := List.forall_mem_append.1 inRange
    rw [lines_ended ended, takeLines_row row here, ih later, add_add]
  | lastStop blank no_feed =>
    intro d number
    rw [lines_encode_of_ne_nil no_feed (by simp), takeLines_stop blank, add_nil]
  | stop blank ended rest =>
    intro d number
    rw [lines_ended ended, takeLines_stop blank, add_nil]

/-! ### What the numbers amount to -/

theorem foldl_take_literals {c : List Int} (nonzero : ∀ z ∈ c, z ≠ 0) :
    ∀ d : Draft, c.foldl take d = { d with begun := c.reverse ++ d.begun } := by
  induction c with
  | nil => exact fun d => rfl
  | cons z rest ih =>
    intro d
    obtain ⟨first, others⟩ := List.forall_mem_cons.1 nonzero
    rw [List.foldl_cons, ih others, take, if_neg first, List.reverse_cons, List.append_assoc]
    rfl

theorem foldl_take_closed {clauses : List (List Int)} (nonzero : ∀ c ∈ clauses, ∀ z ∈ c, z ≠ 0) :
    ∀ d : Draft, d.begun = [] → (clauses.flatMap withZero).foldl take d =
      { d with finished := clauses.reverse ++ d.finished } := by
  induction clauses with
  | nil => exact fun d _ => rfl
  | cons c rest ih =>
    intro d fresh
    obtain ⟨first, others⟩ := List.forall_mem_cons.1 nonzero
    have ended : (withZero c).foldl take d = { d with finished := c :: d.finished } := by
      rw [withZero, List.foldl_append, foldl_take_literals first, fresh]
      simp [take]
    rw [List.flatMap_cons, List.foldl_append, ended,
      ih others { d with finished := c :: d.finished } fresh, List.reverse_cons, List.append_assoc]
    rfl

/-- Numbers that spell clauses are read as these clauses. -/
theorem clauses_spells {clauses : List (List Int)} {numbers : List Int}
    (spells : Spells clauses numbers) (nonzero : ∀ c ∈ clauses, ∀ z ∈ c, z ≠ 0)
    (declared : Option Nat) : (empty.add declared numbers).clauses = clauses := by
  unfold add
  rw [foldl_take_declared]
  cases spells with
  | closed =>
    rw [foldl_take_closed nonzero empty rfl]
    simp [Draft.clauses, empty]
  | unclosed clauses nonempty =>
    obtain ⟨nonzero, last⟩ := List.forall_mem_append.1 nonzero
    rw [List.foldl_append, foldl_take_closed nonzero empty rfl,
      foldl_take_literals (List.forall_mem_singleton.1 last)]
    simp [Draft.clauses, empty, nonempty]

theorem declared_add (d : Draft) (declared : Option Nat) (numbers : List Int) :
    (d.add declared numbers).declared = declared.or d.declared := by
  rw [add, foldl_take_declared]

end Draft

theorem Row.declared_le {declared : Option Nat} {numbers : List Int} {text : List Char}
    (row : Row declared numbers text) : declared.getD 0 ≤ Formula.maxVars := by
  cases row with
  | comment | numbers => exact Nat.zero_le _
  | problem _ _ inside => exact inside

theorem Layout.declared_le {declared : Option Nat} {numbers : List Int} {bytes : List UInt8}
    (layout : Layout declared numbers bytes) : declared.getD 0 ≤ Formula.maxVars := by
  induction layout with
  | nil | lastStop | stop => exact Nat.zero_le _
  | last row => exact row.declared_le
  | @line first later _ _ _ _ _ row _ _ ih =>
    -- The later of two declarations counts.
    cases later with
    | none => exact row.declared_le
    | some n => exact ih

/-- Every text that spells clauses without clashes is read as the formula of these clauses, over the
variables declared last and those that occur, however its numbers are laid out. -/
theorem read_layout {clauses : List (List Int)} {numbers : List Int} {declared : Option Nat}
    {bytes : List UInt8} (literals : ∀ c ∈ clauses, ∀ z ∈ c, z ≠ 0 ∧ Literal.InRange z)
    (consistent : ∀ c ∈ clauses, ∀ z ∈ c, -z ∉ c) (spells : Spells clauses numbers)
    (layout : Layout declared numbers bytes) :
    ∃ f, Formula.withVars (max (declared.getD 0) (Formula.greatestVar clauses)) clauses = .ok f ∧
      read bytes = .ok f := by
  have occurring := Formula.greatestVar_le_iff.1 (Nat.le_refl (Formula.greatestVar clauses))
  have proper : ∀ c ∈ clauses,
      Formula.Proper (max (declared.getD 0) (Formula.greatestVar clauses)) c := by
    refine fun c member => ⟨fun z z_mem => ?_, consistent c member⟩
    obtain ⟨nonzero, inRange⟩ := literals c member z z_mem
    exact ⟨nonzero, inRange, Nat.le_trans (occurring c member z z_mem) (Nat.le_max_right ..)⟩
  have inside : max (declared.getD 0) (Formula.greatestVar clauses) ≤ Formula.maxVars := by
    refine Nat.max_le.2
      ⟨layout.declared_le, Formula.greatestVar_le_iff.2 fun c member z z_mem => ?_⟩
    obtain ⟨_, low, high⟩ := literals c member z z_mem
    unfold Formula.maxVars
    omega
  refine ⟨_, Formula.withVars_eq_ok inside proper, ?_⟩
  -- The draft has the clauses whatever has been declared, and both count the same variables.
  have draft := Draft.takeLines_layout layout
    (spells.inRange fun c member z z_mem => (literals c member z z_mem).2) Draft.empty 1
  rw [read, draft, ok_bind, Draft.formula, Draft.clauses_spells spells
    (fun c member z z_mem => (literals c member z z_mem).1), Draft.declared_add,
    show Draft.empty.declared = none from rfl, Option.or_none, Formula.withVars_eq_ok inside proper]

/-- A clause over two lines with a comment and a problem line between them, an empty clause, a last
clause without its 0, and a byte behind the end that is no text. -/
theorem read_layout_spread :
    ∃ f, Formula.withVars 5 [[1, -2, 3], [], [4]] = .ok f ∧
      read ("1 -2\r\n c\np cnf 5 9\n\t+3 0 0 4\n%\n".toUTF8.data.toList ++ [255]) = .ok f := by
  have numeral : ∀ n, Natural (Nat.toDigits 10 n) n := fun n => .plain (digits_toDigits n)
  have begun : Row none [1, -2] "1 -2".toList :=
    .numbers (separated_iff.2 (by decide : words "1 -2".toList = [['1'], ['-', '2']]))
      (.cons (.natural (numeral 1)) (.cons (.minus (digits_toDigits 2)) .nil))
  have problem : Row (some 5) [] "p cnf 5 9".toList :=
    .problem (separated_iff.2 (by decide)) (numeral 5) (by decide) (numeral 9) (by decide)
  have ended : Row none [3, 0, 0, 4] "\t+3 0 0 4".toList :=
    .numbers
      (separated_iff.2 (by decide :
        words "\t+3 0 0 4".toList = [['+', '3'], ['0'], ['0'], ['4']]))
      (.cons (.natural (.plus (digits_toDigits 3))) (.cons (.natural (numeral 0))
        (.cons (.natural (numeral 0)) (.cons (.natural (numeral 4)) .nil))))
  have blank : Blank [' '] := List.forall_mem_singleton.2 rfl
  have layout : Layout (some 5) [1, -2, 3, 0, 0, 4]
      ((encode "1 -2".toList ++ [13, 10]) ++ ((encode " c".toList ++ [10]) ++
        ((encode "p cnf 5 9".toList ++ [10]) ++ ((encode "\t+3 0 0 4".toList ++ [10]) ++
          ((encode ['%'] ++ [10]) ++ [255]))))) :=
    .line begun (.returnFeed (by decide)) <|
      .line (.comment blank) (.feed ⟨by decide, by decide⟩) <|
      .line problem (.feed ⟨by decide, by decide⟩) <| .line ended (.feed ⟨by decide, by decide⟩) <|
        .stop blank_nil (.feed ⟨by decide, by decide⟩) [255]
  exact read_layout (by decide) (by decide) (.unclosed [[1, -2, 3], []] (by decide)) layout

end ClauseLearning.Dimacs
