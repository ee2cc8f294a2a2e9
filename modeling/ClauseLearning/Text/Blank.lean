/-!
# Blank characters and words

A character is blank when it has the Unicode property White_Space. The words of a text are its
maximal runs of characters that are not blank.
-/

namespace ClauseLearning.Text

/-- The characters with the Unicode property White_Space. -/
def isBlank (c : Char) : Bool :=
  let n := c.toNat
  (0x9 ≤ n && n ≤ 0xD) || n == 0x20 || n == 0x85 || n == 0xA0 || n == 0x1680 ||
    (0x2000 ≤ n && n ≤ 0x200A) || n == 0x2028 || n == 0x2029 || n == 0x202F || n == 0x205F ||
    n == 0x3000

def dropBlank (text : List Char) : List Char :=
  text.dropWhile isBlank

/-- Adds the word read so far, kept in reverse, to the words before it, also kept in reverse. -/
def closeWord (words : List (List Char)) (word : List Char) : List (List Char) :=
  if word.isEmpty then words else word.reverse :: words

/-- Reads on with `words` finished and `word` begun, both in reverse. -/
def wordsFrom (words : List (List Char)) (word : List Char) : List Char → List (List Char)
  | [] => (closeWord words word).reverse
  | c :: rest =>
    if isBlank c then wordsFrom (closeWord words word) [] rest
    else wordsFrom words (c :: word) rest

/-- The words of a text, in order. -/
def words (text : List Char) : List (List Char) :=
  wordsFrom [] [] text

end ClauseLearning.Text
