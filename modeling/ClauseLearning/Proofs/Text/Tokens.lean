import ClauseLearning.Literal
import ClauseLearning.Proofs.Text.Lines
import ClauseLearning.Text.Blank
import ClauseLearning.Text.Numeral

/-!
# Words and numerals of a written text

Main statements: words that stand apart are read as the same words, whatever blanks there are
between them, and a numeral is read as the number that it denotes if that is within the limit.
-/

namespace ClauseLearning.Text

/-! ### Words -/

/-- Some characters, and none of them blank. -/
structure IsWord (word : List Char) : Prop where
  nonempty : word ≠ []
  solid : ∀ c ∈ word, isBlank c = false

/-- Words that have been read stay in front. -/
theorem wordsFrom_eq (text : List Char) :
    ∀ (done : List (List Char)) (word : List Char),
      wordsFrom done word text = done.reverse ++ wordsFrom [] word text := by
  induction text with
  | nil =>
    intro done word
    unfold wordsFrom closeWord
    split <;> simp
  | cons c rest ih =>
    intro done word
    unfold wordsFrom
    split
    next =>
      rw [ih (closeWord done word), ih (closeWord [] word)]
      unfold closeWord
      split <;> simp
    next => exact ih done (c :: word)

theorem wordsFrom_append {word : List Char} (solid : ∀ c ∈ word, isBlank c = false)
    (rest : List Char) :
    ∀ begun, wordsFrom [] begun (word ++ rest) = wordsFrom [] (word.reverse ++ begun) rest := by
  induction word with
  | nil => exact fun begun => rfl
  | cons c word ih =>
    intro begun
    obtain ⟨first, others⟩ := List.forall_mem_cons.1 solid
    rw [List.cons_append, wordsFrom, if_neg (by simp [first]), ih others, List.reverse_cons,
      List.append_assoc]
    rfl

theorem closeWord_reverse {word : List Char} (isWord : IsWord word) :
    closeWord [] word.reverse = [word] := by
  simp [closeWord, isWord.nonempty]

/-- A blank ends a word. -/
theorem words_append {word : List Char} (isWord : IsWord word) {c : Char} (blank : isBlank c = true)
    (rest : List Char) : words (word ++ c :: rest) = word :: words rest := by
  unfold words
  rw [wordsFrom_append isWord.solid, List.append_nil, wordsFrom, if_pos blank,
    closeWord_reverse isWord, wordsFrom_eq]
  rfl

/-- The end of the text ends a word too. -/
theorem words_of_isWord {word : List Char} (isWord : IsWord word) : words word = [word] := by
  have read := wordsFrom_append isWord.solid [] []
  rw [List.append_nil, List.append_nil] at read
  rw [words, read, wordsFrom, closeWord_reverse isWord, List.reverse_singleton]

/-- Some blanks, or none. -/
def Blank (gap : List Char) : Prop :=
  ∀ c ∈ gap, isBlank c = true

@[simp] theorem blank_nil : Blank [] := by
  simp [Blank]

/-- Blanks in front change nothing. -/
theorem words_gap {gap : List Char} (blank : Blank gap) (text : List Char) :
    words (gap ++ text) = words text := by
  induction gap with
  | nil => rfl
  | cons c gap ih =>
    obtain ⟨first, others⟩ := List.forall_mem_cons.1 blank
    rw [← ih others, List.cons_append, words, wordsFrom, if_pos first]
    rfl

theorem dropBlank_gap {gap : List Char} (blank : Blank gap) (text : List Char) :
    dropBlank (gap ++ text) = dropBlank text :=
  List.dropWhile_append_of_pos blank

/-- A text that can follow a word without making it longer. -/
def Apart (rest : List Char) : Prop :=
  ∀ c ∈ rest.head?, isBlank c = true

@[simp] theorem apart_nil : Apart [] := by
  simp [Apart]

/-- A word that stands apart from the rest is read first. -/
theorem words_word {word rest : List Char} (isWord : IsWord word) (apart : Apart rest) :
    words (word ++ rest) = word :: words rest := by
  cases rest with
  | nil => rw [List.append_nil, words_of_isWord isWord]; rfl
  | cons c rest =>
    have blank : isBlank c = true := apart c rfl
    have gap : Blank [c] := List.forall_mem_singleton.2 blank
    rw [words_append isWord blank, ← words_gap gap rest, List.singleton_append]

/-- A text in which the given words stand apart, with blanks in front and behind or without. -/
inductive Separated : List (List Char) → List Char → Prop where
  | nil {gap : List Char} (blank : Blank gap) : Separated [] gap
  | cons {gap word rest : List Char} {ws : List (List Char)} (blank : Blank gap)
      (isWord : IsWord word) (apart : Apart rest) (others : Separated ws rest) :
      Separated (word :: ws) (gap ++ (word ++ rest))

theorem words_of_separated {ws : List (List Char)} {text : List Char}
    (separated : Separated ws text) : words text = ws := by
  induction separated with
  | @nil gap blank => rw [← List.append_nil gap, words_gap blank]; rfl
  | cons blank isWord apart _ ih => rw [words_gap blank, words_word isWord apart, ih]

theorem Separated.gap {ws : List (List Char)} {gap text : List Char} (blank : Blank gap)
    (separated : Separated ws text) : Separated ws (gap ++ text) := by
  cases separated with
  | nil more => exact .nil (List.forall_mem_append.2 ⟨blank, more⟩)
  | cons more isWord apart others =>
    rw [← List.append_assoc]
    exact .cons (List.forall_mem_append.2 ⟨blank, more⟩) isWord apart others

/-- A word that is closed stands apart from what follows. -/
theorem Separated.closeWord {word rest : List Char} {ws : List (List Char)}
    (solid : ∀ c ∈ word, isBlank c = false) (apart : Apart rest) (others : Separated ws rest) :
    Separated ((closeWord [] word).reverse ++ ws) (word.reverse ++ rest) := by
  cases word with
  | nil => exact others
  | cons c word =>
    have isWord : IsWord (c :: word).reverse :=
      ⟨by simp, fun d member => solid d (List.mem_reverse.1 member)⟩
    exact .cons blank_nil isWord apart others

/-- The words of a text stand apart in it. -/
theorem separated_words (text : List Char) : Separated (words text) text := by
  -- The word that has been begun, kept in reverse, is in front of what is still to be read.
  have begun : ∀ (text word : List Char), (∀ c ∈ word, isBlank c = false) →
      Separated (wordsFrom [] word text) (word.reverse ++ text) := by
    intro text
    induction text with
    | nil =>
      intro word solid
      have closed : Separated ((closeWord [] word).reverse ++ []) (word.reverse ++ []) :=
        .closeWord solid apart_nil (.nil blank_nil)
      rwa [List.append_nil] at closed
    | cons c text ih =>
      intro word solid
      unfold wordsFrom
      split
      next blank =>
        have gap : Blank [c] := List.forall_mem_singleton.2 blank
        have apart : Apart (c :: text) := by simpa [Apart] using blank
        rw [wordsFrom_eq]
        exact .closeWord solid apart ((ih [] (by simp)).gap gap)
      next unfinished =>
        have longer : ∀ x ∈ c :: word, isBlank x = false :=
          List.forall_mem_cons.2 ⟨Bool.not_eq_true _ ▸ unfinished, solid⟩
        have same : word.reverse ++ c :: text = (c :: word).reverse ++ text := by simp
        rw [same]
        exact ih (c :: word) longer
  exact begun text [] (by simp)

/-- The words of a text are those that stand apart in it. -/
theorem separated_iff {ws : List (List Char)} {text : List Char} :
    Separated ws text ↔ words text = ws :=
  ⟨words_of_separated, fun read => read ▸ separated_words text⟩

/-- A word with a space behind it. -/
def spaced (word : List Char) : List Char :=
  word ++ [' ']

/-- What is written word by word is read word by word. -/
theorem words_spaced {ws : List (List Char)} (all : ∀ word ∈ ws, IsWord word) (rest : List Char) :
    words (ws.flatMap spaced ++ rest) = ws ++ words rest := by
  induction ws with
  | nil => rfl
  | cons word ws ih =>
    obtain ⟨first, others⟩ := List.forall_mem_cons.1 all
    have text : (word :: ws).flatMap spaced ++ rest =
        word ++ ' ' :: (ws.flatMap spaced ++ rest) := by
      simp [spaced]
    rw [text, words_append first rfl, ih others, List.cons_append]

/-- Words with spaces between them fit in a line. -/
theorem fitsLine_spaced {ws : List (List Char)} {last : List Char}
    (all : ∀ word ∈ ws, IsWord word) (isWord : IsWord last) :
    FitsLine (ws.flatMap spaced ++ last) := by
  have only_space : ∀ c ∈ ws.flatMap spaced ++ last, c = ' ' ∨ isBlank c = false := by
    intro c member
    rcases List.mem_append.1 member with among | in_last
    · obtain ⟨word, word_mem, in_spaced⟩ := List.mem_flatMap.1 among
      rcases List.mem_append.1 in_spaced with in_word | space
      · exact .inr ((all word word_mem).solid c in_word)
      · exact .inl (List.mem_singleton.1 space)
    · exact .inr (isWord.solid c in_last)
  refine ⟨fun feed => ?_, fun last_return => ?_⟩
  · exact absurd (only_space _ feed) (by decide)
  · exact absurd (only_space _ (List.mem_of_getLast? last_return)) (by decide)

/-! ### Numerals -/

theorem digit?_of_isDigit {c : Char} (isDigit : c.isDigit = true) :
    digit? c = some (c.toNat - '0'.toNat) := by
  have inside := Char.isDigit_iff_toNat.1 isDigit
  exact if_pos inside

theorem le_ofDigitChars (digits : List Char) :
    ∀ value, value ≤ Nat.ofDigitChars 10 digits value := by
  induction digits with
  | nil => exact fun value => Nat.le_refl value
  | cons c rest ih =>
    intro value
    rw [Nat.ofDigitChars_cons]
    have more := ih (10 * value + (c.toNat - '0'.toNat))
    omega

/-- Digits are read as the number that they denote, if it is within the limit. -/
theorem readDigits_eq_ok (limit : Nat) (tooFar : NumeralFault) {digits : List Char}
    (areDigits : ∀ c ∈ digits, c.isDigit = true) :
    ∀ value, Nat.ofDigitChars 10 digits value ≤ limit →
      readDigits limit tooFar value digits = .ok (Nat.ofDigitChars 10 digits value) := by
  induction digits with
  | nil => exact fun value _ => rfl
  | cons c rest ih =>
    intro value inside
    obtain ⟨first, others⟩ := List.forall_mem_cons.1 areDigits
    rw [Nat.ofDigitChars_cons] at inside ⊢
    -- A number only grows while its digits are read, so the limit holds all along.
    have within := Nat.le_trans (le_ofDigitChars rest _) inside
    rw [readDigits, digit?_of_isDigit first]
    simp only [if_pos within]
    exact ih others _ inside

/-- Decimal digits that denote a number; zeros may stand in front. -/
structure Digits (text : List Char) (n : Nat) : Prop where
  nonempty : text ≠ []
  isDigit : ∀ c ∈ text, c.isDigit = true
  value_eq : Nat.ofDigitChars 10 text 0 = n

theorem digits_toDigits (n : Nat) : Digits (Nat.toDigits 10 n) n :=
  ⟨Nat.toDigits_ne_nil, fun _ => Nat.isDigit_of_mem_toDigits (by decide) (by decide),
    Nat.ofDigitChars_toDigits (by decide) (by decide)⟩

/-- A number starts with a digit, and so with no sign. -/
theorem Digits.exists_cons {text : List Char} {n : Nat} (digits : Digits text n) :
    ∃ c rest, text = c :: rest ∧ c.isDigit = true := by
  obtain ⟨c, rest, rfl⟩ := List.exists_cons_of_ne_nil digits.nonempty
  exact ⟨c, rest, rfl, digits.isDigit c (List.mem_cons_self ..)⟩

/-- A numeral of a natural number: digits, perhaps with a plus sign in front. -/
inductive Natural : List Char → Nat → Prop where
  | plain {text : List Char} {n : Nat} (digits : Digits text n) : Natural text n
  | plus {text : List Char} {n : Nat} (digits : Digits text n) : Natural ('+' :: text) n

/-- A numeral of an integer: digits, perhaps with a sign in front. -/
inductive Integer : List Char → Int → Prop where
  | natural {text : List Char} {n : Nat} (natural : Natural text n) : Integer text n
  | minus {text : List Char} {n : Nat} (digits : Digits text n) : Integer ('-' :: text) (-n)

theorem readMagnitude_eq_ok {limit n : Nat} {text : List Char} (tooFar : NumeralFault)
    (digits : Digits text n) (inside : n ≤ limit) : readMagnitude limit tooFar text = .ok n := by
  obtain ⟨nonempty, isDigit, rfl⟩ := digits
  rw [readMagnitude, if_neg (by simpa using nonempty),
    readDigits_eq_ok limit tooFar isDigit 0 inside]

theorem readNatural_eq_ok {limit n : Nat} {text : List Char} (natural : Natural text n)
    (inside : n ≤ limit) : readNatural limit text = .ok n := by
  cases natural with
  | plus digits => exact readMagnitude_eq_ok .tooLarge digits inside
  | plain digits =>
    rw [← readMagnitude_eq_ok .tooLarge digits inside]
    obtain ⟨c, rest, rfl, isDigit⟩ := digits.exists_cons
    unfold readNatural
    split
    next empty => cases empty
    next signed =>
      cases signed
      cases isDigit
    next => rfl

theorem readInteger_eq_ok {limit : Nat} {text : List Char} {z : Int} (integer : Integer text z)
    (inside : -(limit + 1 : Int) ≤ z ∧ z ≤ limit) : readInteger limit text = .ok z := by
  cases integer with
  | @minus text n digits =>
    rw [readInteger, readMagnitude_eq_ok .tooSmall digits (by omega)]
    rfl
  | @natural text n natural =>
    have within : n ≤ limit := by omega
    cases natural with
    | plus digits =>
      rw [readInteger, readMagnitude_eq_ok .tooLarge digits within]
      rfl
    | plain digits =>
      have read := readMagnitude_eq_ok .tooLarge digits within
      obtain ⟨c, rest, rfl, isDigit⟩ := digits.exists_cons
      unfold readInteger
      split
      next empty => cases empty
      next signed =>
        cases signed
        cases isDigit
      next signed =>
        cases signed
        cases isDigit
      next =>
        rw [read]
        rfl

/-- The first character of a numeral. -/
def StartsNumeral (c : Char) : Prop :=
  c.isDigit = true ∨ c = '+' ∨ c = '-'

theorem Integer.exists_cons {text : List Char} {z : Int} (integer : Integer text z) :
    ∃ c rest, text = c :: rest ∧ StartsNumeral c := by
  cases integer with
  | minus digits => exact ⟨_, _, rfl, .inr (.inr rfl)⟩
  | natural natural =>
    cases natural with
    | plus digits => exact ⟨_, _, rfl, .inr (.inl rfl)⟩
    | plain digits =>
      obtain ⟨c, rest, shape, isDigit⟩ := digits.exists_cons
      exact ⟨c, rest, shape, .inl isDigit⟩

/-! ### Written numbers -/

theorem readNatural_toDigits {limit n : Nat} (inside : n ≤ limit) :
    readNatural limit (Nat.toDigits 10 n) = .ok n :=
  readNatural_eq_ok (.plain (digits_toDigits n)) inside

theorem toList_text (l : Literal) :
    l.text.toList = (if l.polarity then [] else ['-']) ++ Nat.toDigits 10 l.var := by
  unfold Literal.text
  split <;> simp

theorem integer_text (l : Literal) : Integer l.text.toList l.toInt := by
  rw [toList_text, Literal.toInt]
  cases l.polarity with
  | false => exact .minus (digits_toDigits l.var)
  | true => exact .natural (.plain (digits_toDigits l.var))

theorem isBlank_of_isDigit {c : Char} (isDigit : c.isDigit = true) : isBlank c = false := by
  obtain ⟨low, high⟩ := Char.isDigit_iff_toNat.1 isDigit
  simp only [Char.reduceToNat] at low high
  simp only [isBlank, Bool.or_eq_false_iff, Bool.and_eq_false_imp, decide_eq_true_eq,
    decide_eq_false_iff_not, beq_eq_false_iff_ne]
  omega

theorem isWord_toDigits (n : Nat) : IsWord (Nat.toDigits 10 n) :=
  ⟨Nat.toDigits_ne_nil, fun c member => isBlank_of_isDigit ((digits_toDigits n).isDigit c member)⟩

theorem isWord_text (l : Literal) : IsWord l.text.toList := by
  obtain ⟨nonempty, solid⟩ := isWord_toDigits l.var
  rw [toList_text]
  refine ⟨by simp [nonempty], fun c member => ?_⟩
  rcases List.mem_append.1 member with sign | digit
  · split at sign
    next => cases sign
    next =>
      rw [List.mem_singleton.1 sign]
      rfl
  · exact solid c digit

end ClauseLearning.Text
