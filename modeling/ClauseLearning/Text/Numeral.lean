/-!
# Decimal numerals of bounded size

A numeral is an optional sign and at least one decimal digit. Digits are taken from left to right,
so of two faults the leftmost counts: a character that is no digit is found before the bound is
looked at, and a number that has left its range is not read any further.
-/

namespace ClauseLearning.Text

/-- Why a text is not a numeral within its range. -/
inductive NumeralFault where
  | empty
  | invalidDigit
  | tooLarge
  | tooSmall
deriving DecidableEq, Repr

def NumeralFault.message : NumeralFault → String
  | .empty => "cannot parse integer from empty string"
  | .invalidDigit => "invalid digit found in string"
  | .tooLarge => "number too large to fit in target type"
  | .tooSmall => "number too small to fit in target type"

def digit? (c : Char) : Option Nat :=
  if '0' ≤ c ∧ c ≤ '9' then some (c.toNat - '0'.toNat) else none

/-- Reads the remaining digits of a number that is `value` so far; past `limit` the fault is
`tooFar`. -/
def readDigits (limit : Nat) (tooFar : NumeralFault) (value : Nat) :
    List Char → Except NumeralFault Nat
  | [] => .ok value
  | c :: rest =>
    match digit? c with
    | none => .error .invalidDigit
    | some d =>
      if 10 * value + d ≤ limit then readDigits limit tooFar (10 * value + d) rest
      else .error tooFar

/-- Reads at least one digit. -/
def readMagnitude (limit : Nat) (tooFar : NumeralFault) (text : List Char) :
    Except NumeralFault Nat :=
  if text.isEmpty then .error .invalidDigit else readDigits limit tooFar 0 text

/-- Reads a number from 0 to `limit`. A plus sign may stand first, a minus sign may not. -/
def readNatural (limit : Nat) : List Char → Except NumeralFault Nat
  | [] => .error .empty
  | '+' :: rest => readMagnitude limit .tooLarge rest
  | text => readMagnitude limit .tooLarge text

/-- Reads a number from `-(limit + 1)` to `limit`, the range of a signed word. -/
def readInteger (limit : Nat) : List Char → Except NumeralFault Int
  | [] => .error .empty
  | '+' :: rest => (readMagnitude limit .tooLarge rest).map Int.ofNat
  | '-' :: rest => (readMagnitude (limit + 1) .tooSmall rest).map fun n => -(n : Int)
  | text => (readMagnitude limit .tooLarge text).map Int.ofNat

end ClauseLearning.Text
