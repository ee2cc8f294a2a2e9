import Mathlib.Data.List.Basic
import Mathlib.Data.List.Induction
import ClauseLearning.Text.Lines

/-!
# Lines of a written text

A text is written as bytes in UTF-8 and read line by line. Only the line feed has a line feed among
its bytes, and only the carriage return has a carriage return, since all bytes of a character beyond
ASCII are at least 128.

Main statement: texts that fit in a line each, written with a line feed behind each of them, are
read as the same lines.
-/

namespace ClauseLearning.Text

/-! ### Bytes -/

/-- The bytes of a text in UTF-8. -/
def encode (text : List Char) : List UInt8 :=
  text.flatMap String.utf8EncodeChar

@[simp] theorem encode_append (a b : List Char) : encode (a ++ b) = encode a ++ encode b :=
  List.flatMap_append

theorem toUTF8_eq_encode (text : String) : text.toUTF8.data.toList = encode text.toList := by
  rw [String.toUTF8_eq_toByteArray, ← String.utf8Encode_toList, List.utf8Encode,
    List.toList_data_toByteArray]
  rfl

/-- Decoding undoes encoding. -/
theorem decode?_encode (text : List Char) : decode? (encode text) = some text := by
  have bytes : ByteArray.mk (encode text).toArray = text.utf8Encode := by
    rw [List.utf8Encode, ← List.data_toByteArray]
    rfl
  rw [decode?, bytes, List.utf8Decode?_utf8Encode]
  rfl

/-- A byte below 128 stands for the character with its number. -/
theorem toNat_eq_of_mem_utf8EncodeChar {c : Char} {b : UInt8}
    (member : b ∈ String.utf8EncodeChar c) (low : b.toNat < 128) : c.toNat = b.toNat := by
  have number : c.toNat = c.val.toNat := rfl
  revert member
  fun_cases String.utf8EncodeChar c with
  | case1 v ascii =>
    intro member
    rw [List.mem_singleton.1 member, UInt8.toNat_ofNat', Nat.mod_eq_of_lt (by omega), number]
  -- Beyond ASCII every byte is at least 128.
  | case2 | case3 | case4 =>
    intro member
    exfalso
    simp only [List.mem_cons, List.not_mem_nil, or_false] at member
    rcases member with rfl | rfl | rfl | rfl <;> rw [UInt8.toNat_ofNat'] at low <;> omega

theorem feed_mem_of_encode {text : List Char} (member : 10 ∈ encode text) : '\n' ∈ text := by
  obtain ⟨c, c_mem, among⟩ := List.mem_flatMap.1 member
  have feed : c = '\n' := Char.toNat_inj.1 (toNat_eq_of_mem_utf8EncodeChar among (by decide))
  exact feed ▸ c_mem

theorem getLast?_of_encode {text : List Char} (last : (encode text).getLast? = some 13) :
    text.getLast? = some '\r' := by
  induction text using List.reverseRecOn with
  | nil => cases last
  | append_singleton init c _ =>
    have bytes : encode (init ++ [c]) = encode init ++ String.utf8EncodeChar c := by
      simp [encode]
    rw [bytes, List.getLast?_append_of_ne_nil _ String.utf8EncodeChar_ne_nil] at last
    have among := List.mem_of_getLast? last
    have ret : c = '\r' := Char.toNat_inj.1 (toNat_eq_of_mem_utf8EncodeChar among (by decide))
    rw [List.getLast?_concat, ret]

/-! ### Lines -/

/-- Lines that have been read stay in front. -/
theorem linesFrom_eq (bytes : List UInt8) :
    ∀ (done : List (List UInt8)) (line : List UInt8),
      linesFrom done line bytes = done.reverse ++ linesFrom [] line bytes := by
  induction bytes with
  | nil =>
    intro done line
    unfold linesFrom
    split <;> simp
  | cons b rest ih =>
    intro done line
    unfold linesFrom
    split
    next =>
      rw [ih (closeLine line :: done), ih [closeLine line], List.reverse_cons,
        List.append_assoc]
      rfl
    next => exact ih done (b :: line)

theorem linesFrom_append {bytes : List UInt8} (no_feed : 10 ∉ bytes) (rest : List UInt8) :
    ∀ (done : List (List UInt8)) (line : List UInt8),
      linesFrom done line (bytes ++ rest) = linesFrom done (bytes.reverse ++ line) rest := by
  induction bytes with
  | nil => exact fun done line => rfl
  | cons b bytes ih =>
    intro done line
    obtain ⟨different, others⟩ := not_or.1 (mt List.mem_cons.2 no_feed)
    rw [List.cons_append, linesFrom, if_neg (Ne.symm different), ih others, List.reverse_cons,
      List.append_assoc]
    rfl

theorem closeLine_reverse {bytes : List UInt8} (no_return : bytes.getLast? ≠ some 13) :
    closeLine bytes.reverse = bytes := by
  rw [← List.head?_reverse] at no_return
  cases reversed : bytes.reverse with
  | nil => rw [closeLine, List.reverse_eq_nil_iff.1 reversed]
  | cons b rest =>
    rw [reversed] at no_return
    have plain : b ≠ 13 := fun ret => no_return (congrArg some ret)
    rw [closeLine, if_neg plain, ← reversed, List.reverse_reverse]

/-- A line feed ends a line. -/
theorem lines_append {bytes : List UInt8} (no_feed : 10 ∉ bytes)
    (no_return : bytes.getLast? ≠ some 13) (rest : List UInt8) :
    lines (bytes ++ 10 :: rest) = bytes :: lines rest := by
  unfold lines
  rw [linesFrom_append no_feed, List.append_nil, linesFrom, if_pos rfl,
    closeLine_reverse no_return, linesFrom_eq]
  rfl

/-- A text that fits in a line: it has no line feed, and no carriage return at its end. -/
structure FitsLine (text : List Char) : Prop where
  no_feed : '\n' ∉ text
  no_return : text.getLast? ≠ some '\r'

/-- The bytes of a text that fits in a line, with the end of the line behind them: a line feed, or a
carriage return and a line feed. A carriage return directly before a line feed belongs to the
end. -/
inductive Ended (text : List Char) : List UInt8 → Prop where
  | feed (fits : FitsLine text) : Ended text (encode text ++ [10])
  | returnFeed (no_feed : '\n' ∉ text) : Ended text (encode text ++ [13, 10])

/-- The end of a line is no part of it. -/
theorem lines_ended {text : List Char} {bytes : List UInt8} (ended : Ended text bytes)
    (rest : List UInt8) : lines (bytes ++ rest) = encode text :: lines rest := by
  cases ended with
  | feed fits =>
    rw [List.append_assoc]
    exact lines_append (mt feed_mem_of_encode fits.no_feed) (mt getLast?_of_encode fits.no_return) _
  | returnFeed no_feed =>
    have closed : closeLine (13 :: (encode text).reverse) = encode text := by
      rw [closeLine, if_pos rfl, List.reverse_reverse]
    unfold lines
    rw [List.append_assoc, linesFrom_append (mt feed_mem_of_encode no_feed), List.append_nil]
    change linesFrom [closeLine (13 :: (encode text).reverse)] [] rest = _
    rw [closed, linesFrom_eq]
    rfl

/-- The last line may lack its end. -/
theorem lines_encode_of_ne_nil {text : List Char} (no_feed : '\n' ∉ text) (nonempty : text ≠ []) :
    lines (encode text) = [encode text] := by
  have bytes : encode text ≠ [] := by
    obtain ⟨c, rest, rfl⟩ := List.exists_cons_of_ne_nil nonempty
    simp [encode]
  have read := linesFrom_append (mt feed_mem_of_encode no_feed) [] [] []
  rw [List.append_nil, List.append_nil] at read
  rw [lines, read, linesFrom, if_neg (by simpa using bytes)]
  simp

/-- A text with a line feed behind it. -/
def terminated (text : List Char) : List Char :=
  text ++ ['\n']

/-- What is written line by line is read line by line. -/
theorem lines_encode {texts : List (List Char)} (fit : ∀ text ∈ texts, FitsLine text) :
    lines (encode (texts.flatMap terminated)) = texts.map encode := by
  induction texts with
  | nil => rfl
  | cons text rest ih =>
    obtain ⟨⟨no_feed, no_return⟩, others⟩ := List.forall_mem_cons.1 fit
    have bytes : encode ((text :: rest).flatMap terminated) =
        encode text ++ 10 :: encode (rest.flatMap terminated) := by
      rw [List.flatMap_cons, encode_append, terminated, encode_append, List.append_assoc]
      rfl
    rw [bytes, lines_append (mt feed_mem_of_encode no_feed) (mt getLast?_of_encode no_return),
      ih others, List.map_cons]

end ClauseLearning.Text
