import ClauseLearning.Word

/-!
# The Luby sequence

The sequence `1, 1, 2, 1, 1, 2, 4, 1, 1, 2, 1, 1, 2, 4, 8, …` is made of segments. The segment of
order `k` has `2 ^ (k + 1) - 1` elements: the segment of order `k - 1` twice, and `2 ^ k` at the
end.

`luby` gives the element at any position. `luby?` computes it with 64-bit words only.
-/

namespace ClauseLearning.Luby

/-- The number of elements in the segment of order `k`. -/
def segment (k : Nat) : Nat :=
  Nat.pow 2 (k + 1) - 1

/-- The order of the least segment with more than `x` elements, looked for from order `k` on. -/
def orderFrom (x : Nat) : Nat → Nat → Nat
  | 0, k => k
  | fuel + 1, k => if segment k < x + 1 then orderFrom x fuel (k + 1) else k

/-- The order of the least segment with an element at position `x`, counted from 0. -/
def order (x : Nat) : Nat :=
  orderFrom x (x + 1).log2 0

/-- The element at position `x` of the segment of order `k`. -/
def element : Nat → Nat → Nat
  | 0, _ => 1
  | k + 1, x => if segment (k + 1) = x + 1 then Nat.pow 2 (k + 1) else element k (x % segment k)

/-- The element of the Luby sequence at position `x`, counted from 0. -/
def luby (x : Nat) : Nat :=
  element (order x) x

/-! ### Computing in words

Where a position is given as a 64-bit word, so is every number on the way to the element. First
segments are doubled until one has an element at the position, then they are halved again until the
position is the last one. There is no answer if a number is too great for a word, or if something
would be taken from zero, divided by zero or shifted by the width of a word.
-/

/-- The greatest order that is counted: a signed word of 32 bits holds it. -/
def greatestOrder : Nat := 0x7fffffff

/-- Doubles the segment with the given size and order until it has an element at position `x`. -/
def climb? (x size order : Nat) : Option (Nat × Nat) :=
  if Word.greatest < x + 1 then none
  else if size < x + 1 then
    if Word.greatest < 2 * size + 1 ∨ greatestOrder < order + 1 then none
    else climb? x (2 * size + 1) (order + 1)
  else some (size, order)
termination_by x + 1 - size

/-- Halves the segment with the given size and order until position `x` is its last. -/
def descend? (size order x : Nat) : Option Nat :=
  if size = 0 then none
  else if size - 1 = x then if order < Word.width then some (Nat.pow 2 order) else none
  else if order = 0 ∨ (size - 1) / 2 = 0 then none
  else descend? ((size - 1) / 2) (order - 1) (x % ((size - 1) / 2))
termination_by size

/-- The element of the Luby sequence at position `x`, counted from 0 and computed in words. -/
def luby? (x : Nat) : Option Nat := do
  let (size, order) ← climb? x 1 0
  descend? size order x

end ClauseLearning.Luby
