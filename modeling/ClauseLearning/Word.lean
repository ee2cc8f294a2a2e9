/-!
# Words

Counters and numerals are bounded by the 64-bit words.
-/

namespace ClauseLearning.Word

/-- The number of 64-bit words. -/
def count : Nat := 0x10000000000000000

/-- The greatest 64-bit word. -/
def greatest : Nat := 0xffffffffffffffff

/-- The number of bits of a word. -/
def width : Nat := 64

theorem count_eq : count = greatest + 1 := rfl

/-- A number of any size as a word: what is too great becomes the greatest. -/
def saturate (n : Nat) : Nat :=
  min n greatest

theorem saturate_of_le {n : Nat} (fits : n ≤ greatest) : saturate n = n :=
  Nat.min_eq_left fits

end ClauseLearning.Word
