import ClauseLearning.Proofs.Construction
import ClauseLearning.Proofs.Text.Tokens

/-!
# Reading what has been written

A formula is written as a problem line and one line for each clause. The reader takes such a text
apart into lines, the lines into words and the words into numbers, and it makes clauses of the
numbers as it would for any other text.

Main statement: a constructed formula that has been written is read as the same formula, with the
same variables, the same clauses and the same order of their literals. Clauses without literals and
declared variables that no clause uses are no exception.
-/

namespace ClauseLearning

namespace Dimacs

open Text

/-! ### The written text -/

/-- The problem line of a formula, without its end. -/
def problemText (f : Formula) : List Char :=
  [['p'], ['c', 'n', 'f'], Nat.toDigits 10 f.numVars].flatMap spaced ++
    Nat.toDigits 10 f.inputCount

/-- The literals of a clause as words. -/
def literalWords (c : Clause) : List (List Char) :=
  c.literals.map fun l => l.text.toList

/-- The line of a clause, without its end. -/
def clauseText (c : Clause) : List Char :=
  (literalWords c).flatMap spaced ++ ['0']

theorem toList_clauseLine (c : Clause) : (clauseLine c).toList = terminated (clauseText c) := by
  simp [clauseLine, clauseText, literalWords, terminated, List.flatMap_map, spaced]

theorem toList_write (f : Formula) :
    (write f).toList = (problemText f :: f.inputClauses.map clauseText).flatMap terminated := by
  simp [write, problemText, spaced, terminated, List.flatMap_map, toList_clauseLine]

/-! ### Words and lines -/

theorem isWord_problem (f : Formula) :
    ∀ word ∈ [['p'], ['c', 'n', 'f'], Nat.toDigits 10 f.numVars], IsWord word := by
  intro word member
  simp only [List.mem_cons, List.not_mem_nil, or_false] at member
  rcases member with rfl | rfl | rfl
  · exact ⟨by simp, by simp [isBlank]⟩
  · exact ⟨by simp, by simp [isBlank]⟩
  · exact isWord_toDigits _

theorem isWord_literalWords (c : Clause) : ∀ word ∈ literalWords c, IsWord word := by
  intro word member
  obtain ⟨l, _, rfl⟩ := List.mem_map.1 member
  exact isWord_text l

theorem isWord_zero : IsWord ['0'] :=
  isWord_toDigits 0

theorem fitsLine_problemText (f : Formula) : FitsLine (problemText f) :=
  fitsLine_spaced (isWord_problem f) (isWord_toDigits _)

theorem fitsLine_clauseText (c : Clause) : FitsLine (clauseText c) :=
  fitsLine_spaced (isWord_literalWords c) isWord_zero

/-- The written text has the lines that it was written as. -/
theorem lines_write (f : Formula) :
    lines (write f).toUTF8.data.toList =
      encode (problemText f) :: f.inputClauses.map fun c => encode (clauseText c) := by
  have fit : ∀ text ∈ problemText f :: f.inputClauses.map clauseText, FitsLine text := by
    refine List.forall_mem_cons.2 ⟨fitsLine_problemText f, fun text member => ?_⟩
    obtain ⟨c, _, rfl⟩ := List.mem_map.1 member
    exact fitsLine_clauseText c
  rw [toUTF8_eq_encode, toList_write, lines_encode fit, List.map_cons, List.map_map]
  rfl

theorem words_problemText (f : Formula) :
    words (problemText f) =
      [['p'], ['c', 'n', 'f'], Nat.toDigits 10 f.numVars, Nat.toDigits 10 f.inputCount] := by
  rw [problemText, words_spaced (isWord_problem f), words_of_isWord (isWord_toDigits _)]
  rfl

theorem words_clauseText (c : Clause) : words (clauseText c) = literalWords c ++ [['0']] := by
  rw [clauseText, words_spaced (isWord_literalWords c), words_of_isWord isWord_zero]

/-! ### Kinds of lines -/

theorem ofText_problemText (f : Formula) :
    Line.ofText (problemText f) =
      .problem [['c', 'n', 'f'], Nat.toDigits 10 f.numVars, Nat.toDigits 10 f.inputCount] := by
  have drawn : Line.ofText (problemText f) = .problem ((words (problemText f)).drop 1) := rfl
  rw [drawn, words_problemText]
  rfl

/-- Blanks in front of a line do not matter. -/
theorem ofText_gap {gap : List Char} (blank : Blank gap) (text : List Char) :
    Line.ofText (gap ++ text) = Line.ofText text := by
  rw [Line.ofText, Line.ofText, dropBlank_gap blank]

theorem dropBlank_of_solid {c : Char} (solid : isBlank c = false) (rest : List Char) :
    dropBlank (c :: rest) = c :: rest := by
  rw [dropBlank, List.dropWhile_cons_of_neg (by simp [solid])]

/-- A line that starts like a numeral holds numbers. -/
theorem ofText_numbers {c : Char} (starts : StartsNumeral c) (rest : List Char) :
    Line.ofText (c :: rest) = .numbers (words (c :: rest)) := by
  have solid : isBlank c = false := by
    rcases starts with isDigit | rfl | rfl
    · exact isBlank_of_isDigit isDigit
    · rfl
    · rfl
  unfold StartsNumeral at starts
  unfold Line.ofText
  rw [dropBlank_of_solid solid]
  split
  next same => cases same; exact absurd starts (by decide)
  next same => cases same; exact absurd starts (by decide)
  next same => cases same; exact absurd starts (by decide)
  next => rfl

theorem ofText_clauseText (c : Clause) :
    Line.ofText (clauseText c) = .numbers (literalWords c ++ [['0']]) := by
  rw [← words_clauseText]
  unfold clauseText literalWords
  cases c.literals with
  | nil => exact ofText_numbers (.inl (show '0'.isDigit = true by decide)) []
  | cons l ls =>
    obtain ⟨x, rest, shape, starts⟩ := (integer_text l).exists_cons
    rw [List.map_cons, List.flatMap_cons, spaced, shape]
    exact ofText_numbers starts _

/-! ### Numbers -/

theorem readNumber_eq_ok {token : List Char} {z : Int} (integer : Integer token z)
    (inside : Literal.InRange z) : readNumber token = .ok z := by
  rw [readNumber, readInteger_eq_ok integer (by unfold literalMax; omega)]
  exact if_neg (by unfold literalMax; omega)

theorem readNumber_text {l : Literal} (represented : l.var < literalBound) :
    readNumber l.text.toList = .ok l.toInt := by
  refine readNumber_eq_ok (integer_text l) ?_
  have magnitude : l.toInt.natAbs < 2 ^ 31 := by rwa [Literal.natAbs_toInt]
  omega

theorem readProblem_write {f : Formula} (admitted : f.Admitted)
    (counted : f.inputCount ≤ Word.greatest) :
    readProblem [['c', 'n', 'f'], Nat.toDigits 10 f.numVars, Nat.toDigits 10 f.inputCount] =
      .ok f.numVars := by
  have declared : f.numVars ≤ Word.greatest := Nat.le_trans admitted.numVars_le (by decide)
  simp [readProblem, checkClauseCount, readNatural_toDigits declared, readNatural_toDigits counted]

namespace Draft

/-- The literals of a clause are added to the clause that has been begun. -/
theorem takeTokens_literals {ls : List Literal} (positive : ∀ l ∈ ls, 0 < l.var)
    (represented : ∀ l ∈ ls, l.var < literalBound) (rest : List (List Char)) :
    ∀ d : Draft, d.takeTokens ((ls.map fun l => l.text.toList) ++ rest) =
      takeTokens { d with begun := (ls.map Literal.toInt).reverse ++ d.begun } rest := by
  induction ls with
  | nil => exact fun d => rfl
  | cons l ls ih =>
    intro d
    obtain ⟨positive_l, positive_ls⟩ := List.forall_mem_cons.1 positive
    obtain ⟨represented_l, represented_ls⟩ := List.forall_mem_cons.1 represented
    have nonzero : l.toInt ≠ 0 := by
      intro zero
      rw [← Literal.natAbs_toInt, zero] at positive_l
      exact absurd positive_l (by decide)
    rw [List.map_cons, List.cons_append, takeTokens, readNumber_text represented_l]
    simp only [take, if_neg nonzero]
    rw [ih positive_ls represented_ls, List.map_cons, List.reverse_cons, List.append_assoc]
    rfl

theorem takeTokens_clause {declared : Nat} {c : Clause} (accepted : c.Accepted declared)
    {d : Draft} (fresh : d.begun = []) :
    d.takeTokens (literalWords c ++ [['0']]) =
      .ok { d with finished := c.numbers :: d.finished } := by
  rw [literalWords, takeTokens_literals accepted.positive accepted.represented, takeTokens,
    show readNumber ['0'] = .ok 0 from rfl]
  simp [take, takeTokens, fresh, Clause.numbers]

theorem takeLines_clauses {declared : Nat} {cs : List Clause}
    (accepted : ∀ c ∈ cs, c.Accepted declared) :
    ∀ (d : Draft) (number : Nat), d.begun = [] →
      d.takeLines number (cs.map fun c => encode (clauseText c)) =
        .ok { d with finished := (cs.map Clause.numbers).reverse ++ d.finished } := by
  induction cs with
  | nil => exact fun d number _ => rfl
  | cons c cs ih =>
    intro d number fresh
    obtain ⟨first, others⟩ := List.forall_mem_cons.1 accepted
    rw [List.map_cons, takeLines, decode?_encode]
    simp only [ofText_clauseText, takeTokens_clause first fresh]
    rw [ih others { d with finished := c.numbers :: d.finished } _ fresh, List.map_cons,
      List.reverse_cons, List.append_assoc]
    rfl

/-- Reading a written formula line by line drafts it again. -/
theorem takeLines_write {f : Formula} (admitted : f.Admitted)
    (counted : f.inputCount ≤ Word.greatest) :
    empty.takeLines 1 (lines (write f).toUTF8.data.toList) =
      .ok ⟨some f.numVars, (f.inputClauses.map Clause.numbers).reverse, []⟩ := by
  rw [lines_write, takeLines, decode?_encode]
  simp only [ofText_problemText, readProblem_write admitted counted]
  rw [takeLines_clauses admitted.accepted_input _ _ rfl]
  simp [empty]

/-- The draft of a written formula is the formula. -/
theorem formula_write {f : Formula} (admitted : f.Admitted) :
    formula ⟨some f.numVars, (f.inputClauses.map Clause.numbers).reverse, []⟩ = .ok f := by
  simp only [formula, clauses, List.isEmpty_nil, if_true, List.reverse_reverse, Option.getD_some,
    Nat.max_eq_left admitted.greatestVar_le, admitted.withVars_eq]

end Draft

/-- A constructed formula that is written and read is the same formula, also as far as comparing
them tells, and it is written in the same way again. The number of its clauses is a word, as any
count is. -/
theorem readText_write {f : Formula} (constructed : f.Constructed)
    (counted : f.inputCount ≤ Word.greatest) :
    readText (write f) = .ok f ∧ (f == f) = true ∧
      (readText (write f)).map write = .ok (write f) := by
  have admitted := constructed.admitted
  have same : readText (write f) = .ok f := by
    rw [readText, read, Draft.takeLines_write admitted counted, ok_bind,
      Draft.formula_write admitted]
  exact ⟨same, admitted.beq_self, by rw [same, map_ok]⟩

/-- An empty clause, a repeated literal and a variable that no clause uses. -/
theorem readText_write_unused :
    ∃ f, Formula.withVars 4 [[1, -2, 1], [], [-3]] = .ok f ∧
      write f = "p cnf 4 3\n1 -2 0\n0\n-3 0\n" ∧ readText (write f) = .ok f := by
  obtain ⟨f, made, text, counted⟩ : ∃ f, Formula.withVars 4 [[1, -2, 1], [], [-3]] = .ok f ∧
      write f = "p cnf 4 3\n1 -2 0\n0\n-3 0\n" ∧ f.inputCount ≤ Word.greatest :=
    ⟨_, rfl, by decide +kernel, by decide⟩
  exact ⟨f, made, text, (readText_write (.withVars made) counted).1⟩

end Dimacs

end ClauseLearning
