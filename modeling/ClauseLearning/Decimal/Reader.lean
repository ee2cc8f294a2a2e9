import ClauseLearning.Text.Numeral

/-!
# Reading decimal numbers

The text is an optional sign and then one of the words `nan`, `inf` and `infinity` in any case, or
digits with at most one point among or around them and an optional exponent. The value is the
nearest double.
-/

namespace ClauseLearning.Decimal

/-- The longest run of digits at the front, and what follows it. -/
def spanDigits (text : List Char) : List Char × List Char :=
  text.span fun c => (Text.digit? c).isSome

def digitsValue (digits : List Char) : Nat :=
  digits.foldl (fun n c => 10 * n + (Text.digit? c).getD 0) 0

/-- A power of ten beyond this one is infinite whatever the digits, and its inverse vanishes. -/
def exponentReach : Int := 400

/-- The double nearest to `mantissa * 10 ^ exponent`. -/
def nearestDouble (mantissa : Nat) (exponent : Int) : Float :=
  let size : Int := ((toString mantissa).length : Int) + exponent
  if mantissa = 0 then 0.0
  else if exponentReach < size then 1.0 / 0.0
  else if size < -exponentReach then 0.0
  else Float.ofScientific mantissa (exponent < 0) exponent.natAbs

/-- Reads an exponent: a sign or none, and at least one digit up to the end. -/
def readExponent (text : List Char) : Option Int :=
  let (negative, body) :=
    match text with
    | '+' :: rest => (false, rest)
    | '-' :: rest => (true, rest)
    | _ => (false, text)
  let (digits, rest) := spanDigits body
  if digits.isEmpty || !rest.isEmpty then none
  else some (if negative then -(digitsValue digits : Int) else digitsValue digits)

/-- Reads digits, a point and an exponent. -/
def readPositional (text : List Char) : Option Float :=
  let (whole, afterWhole) := spanDigits text
  let (fraction, afterFraction) :=
    match afterWhole with
    | '.' :: rest => spanDigits rest
    | _ => ([], afterWhole)
  if whole.isEmpty && fraction.isEmpty then none
  else
    let exponent :=
      match afterFraction with
      | [] => some 0
      | c :: rest => if c = 'e' ∨ c = 'E' then readExponent rest else none
    exponent.map fun e => nearestDouble (digitsValue (whole ++ fraction)) (e - fraction.length)

def readUnsigned (text : List Char) : Option Float :=
  match (String.ofList text).toLower with
  | "nan" => some (0.0 / 0.0)
  | "inf" => some (1.0 / 0.0)
  | "infinity" => some (1.0 / 0.0)
  | _ => readPositional text

/-- The double that a text writes, if it is a decimal number. -/
def read? (text : List Char) : Option Float :=
  match text with
  | '+' :: rest => readUnsigned rest
  | '-' :: rest => (readUnsigned rest).map fun x => -x
  | _ => readUnsigned text

end ClauseLearning.Decimal
