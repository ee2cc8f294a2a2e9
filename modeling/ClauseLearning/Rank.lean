/-!
# Ranks of doubles

Doubles are compared by rank, a 64-bit word that grows with the number. The rank of a double comes
from its bits alone, so comparing by rank is a total order whatever arithmetic has produced, NaN and
the infinities included.
-/

namespace ClauseLearning.Rank

/-- The bit that holds the sign. -/
def signBit : UInt64 := 0x8000000000000000

/-- The bits of positive infinity; greater magnitudes are NaN. -/
def infinityBits : UInt64 := 0x7ff0000000000000

/-- The rank by value: both zeros have one rank, and so have all NaN, the greatest. -/
def ofValue (x : Float) : UInt64 :=
  let bits := x.toBits
  let magnitude := bits &&& ~~~signBit
  if infinityBits < magnitude then 0xffffffffffffffff
  else if bits &&& signBit = 0 then signBit + magnitude
  else signBit - magnitude

/-- The rank by representation: different bits have different ranks, and -0 comes before 0. -/
def ofBits (x : Float) : UInt64 :=
  let bits := x.toBits
  if bits &&& signBit = 0 then bits ||| signBit else ~~~bits

end ClauseLearning.Rank
