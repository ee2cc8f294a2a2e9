import ClauseLearning.Decimal.Shortest

/-!
# A fixed number of decimal places

The exact value of the double is rounded to a whole number of units in the last place, a half to the
even neighbour.
-/

namespace ClauseLearning.Decimal

/-- The magnitude `mantissa * 2 ^ exponent` in units of `10 ^ -places`. -/
def unitsOf (places mantissa : Nat) (exponent : Int) : Nat :=
  let two := powerOfTwo exponent
  roundHalfEven (mantissa * two.1 * Nat.pow 10 places) two.2

/-- A double with exactly `places` digits behind the point, and no point for none. -/
def fixed (places : Nat) (x : Float) : String :=
  match Binary64.ofFloat x with
  | .nan => "NaN"
  | .infinite negative => if negative then "-inf" else "inf"
  | .finite negative mantissa exponent =>
    let units := unitsOf places mantissa exponent
    let whole := toString (units / Nat.pow 10 places)
    let magnitude :=
      if places = 0 then whole else whole ++ "." ++ padZeros places (units % Nat.pow 10 places)
    if negative then "-" ++ magnitude else magnitude

end ClauseLearning.Decimal
