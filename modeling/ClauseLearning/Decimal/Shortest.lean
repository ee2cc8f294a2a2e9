import ClauseLearning.Decimal.Binary64

/-!
# The fewest digits that read back

Every double is nearest to all reals of an interval around it, ends included exactly when its
mantissa is even. The text of a double has the fewest digits that lie in this interval, and of those
the nearest to the double. For each number of digits it is enough to look at the two neighbours of
the double on that decimal grid. Texts are positional at every size, and a whole number has no
point.
-/

namespace ClauseLearning.Decimal

/-- A finite magnitude with the ends of its rounding interval: all three are multiples of
`2 ^ exponent`, where `exponent` is two less than that of the double. -/
structure Rounding where
  low : Nat
  value : Nat
  high : Nat
  exponent : Int
  closed : Bool
deriving Repr

/-- The rounding interval of `mantissa * 2 ^ exponent`. Below the least mantissa of a binade the gap
is half as wide as above. -/
def Rounding.around (mantissa : Nat) (exponent : Int) : Rounding where
  low :=
    if mantissa = 0x10000000000000 ∧ -1074 < exponent then 4 * mantissa - 1 else 4 * mantissa - 2
  value := 4 * mantissa
  high := 4 * mantissa + 2
  exponent := exponent - 2
  closed := mantissa % 2 = 0

/-- Digits `d` and a place `k` stand for `d * 10 ^ k`. -/
structure Digits where
  digits : Nat
  place : Int
deriving DecidableEq, Repr

/-- A last digit that has become ten is a one in the place before. -/
def Digits.carry (d : Digits) : Digits :=
  if d.digits % 10 = 0 then ⟨d.digits / 10, d.place + 1⟩ else d

namespace Rounding

/-- The factors that turn multiples of the binary unit and of `10 ^ place` into whole numbers of a
common unit. -/
def scales (i : Rounding) (place : Int) : Nat × Nat :=
  let two := powerOfTwo i.exponent
  let ten := powerOfTen place
  (two.1 * ten.2, two.2 * ten.1)

/-- Whether `d * 10 ^ place` lies in the interval. -/
def holds (i : Rounding) (place : Int) (d : Nat) : Bool :=
  let (binary, decimal) := i.scales place
  if i.closed then i.low * binary ≤ d * decimal && d * decimal ≤ i.high * binary
  else i.low * binary < d * decimal && d * decimal < i.high * binary

/-- The multiple of `10 ^ place` in the interval that is nearest to the value, if one of the value's
two neighbours lies in it. Of two at the same distance the greater is taken. -/
def nearest? (i : Rounding) (place : Int) : Option Nat :=
  let (binary, decimal) := i.scales place
  let below := i.value * binary / decimal
  let remainder := i.value * binary % decimal
  match i.holds place below, i.holds place (below + 1) with
  | true, true => some (if decimal ≤ 2 * remainder then below + 1 else below)
  | true, false => some below
  | false, true => some (below + 1)
  | false, false => none

/-- Whether the value is below `10 ^ place`. -/
def below (i : Rounding) (place : Int) : Bool :=
  let (binary, decimal) := i.scales place
  i.value * binary < decimal

/-- The least place above the value, looked for in `steps` places from `place` on. -/
def magnitudeFrom (i : Rounding) (place : Int) : Nat → Int
  | 0 => place
  | steps + 1 => if i.below place then place else i.magnitudeFrom (place + 1) steps

/-- The least `k` with the value below `10 ^ k`. The bit length gives it up to two places. -/
def magnitude (i : Rounding) : Int :=
  let bits : Int := (i.value.log2 : Int) + i.exponent
  i.magnitudeFrom (bits * 30103 / 100000 - 1) 4

/-- Tries more and more digits, from the place `place` downwards. -/
def shortestFrom (i : Rounding) (place : Int) : Nat → Digits
  | 0 => ⟨(i.nearest? place).getD 0, place⟩
  | more + 1 =>
    match i.nearest? place with
    | some d => ⟨d, place⟩
    | none => i.shortestFrom (place - 1) more

/-- The fewest digits that lie in the interval; 17 always do. -/
def shortest (i : Rounding) : Digits :=
  (i.shortestFrom (i.magnitude - 1) 17).carry

end Rounding

/-- Decimal digits behind enough zeros to fill `width` characters. -/
def padZeros (width : Nat) (n : Nat) : String :=
  let text := toString n
  String.ofList (List.replicate (width - text.length) '0') ++ text

/-- `digits * 10 ^ place` written without an exponent. -/
def Digits.positional (d : Digits) : String :=
  if 0 ≤ d.place then toString (d.digits * Nat.pow 10 d.place.toNat)
  else
    let unit := Nat.pow 10 (-d.place).toNat
    let fraction := d.digits % unit
    if fraction = 0 then toString (d.digits / unit)
    else toString (d.digits / unit) ++ "." ++ padZeros (-d.place).toNat fraction

/-- The text of a double: the fewest digits that read back, never an exponent. -/
def shortest (x : Float) : String :=
  match Binary64.ofFloat x with
  | .nan => "NaN"
  | .infinite negative => if negative then "-inf" else "inf"
  | .finite negative mantissa exponent =>
    let magnitude :=
      if mantissa = 0 then "0" else (Rounding.around mantissa exponent).shortest.positional
    if negative then "-" ++ magnitude else magnitude

end ClauseLearning.Decimal
