/-!
# Lines of bytes

A line ends at a line feed, and one carriage return directly before the line feed belongs to the end
of the line. What follows the last line feed is a line of its own unless it is empty, and there a
final carriage return is part of the text. Bytes become characters line by line, so a line that is
not UTF-8 spoils only itself.
-/

namespace ClauseLearning.Text

/-- A line read in reverse, without the carriage return that stood before its line feed. -/
def closeLine : List UInt8 → List UInt8
  | [] => []
  | b :: rest => if b = 13 then rest.reverse else (b :: rest).reverse

/-- Reads on with `lines` finished and `line` begun, both in reverse. -/
def linesFrom (lines : List (List UInt8)) (line : List UInt8) : List UInt8 → List (List UInt8)
  | [] => if line.isEmpty then lines.reverse else (line.reverse :: lines).reverse
  | b :: rest =>
    if b = 10 then linesFrom (closeLine line :: lines) [] rest
    else linesFrom lines (b :: line) rest

/-- The lines of a text given as bytes, in order and without their ends. -/
def lines (bytes : List UInt8) : List (List UInt8) :=
  linesFrom [] [] bytes

/-- The characters that the bytes encode, if they are UTF-8. -/
def decode? (bytes : List UInt8) : Option (List Char) :=
  (ByteArray.mk bytes.toArray).utf8Decode?.map Array.toList

end ClauseLearning.Text
