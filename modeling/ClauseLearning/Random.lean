import ClauseLearning.Word

/-!
# Random numbers

A source of random numbers is a state from which numbers are drawn, and which a seed determines.
What is drawn is left open: all that is relied on is that a draw returns, and that a number drawn
below a bound is below it.

`Generator` is the source that programs use. It adds a constant to its 64-bit state and mixes the
sum by a 128-bit product, whose halves are combined. Numbers in a range are had by rejection: a draw
that would favour some results is repeated.
-/

namespace ClauseLearning

/-- A source of random numbers. -/
class RandomSource (G : Type) where
  ofSeed : UInt64 → G
  /-- A number below a bound. -/
  below : G → Nat → G × Nat
  /-- A fraction in `[0, 1)`. -/
  fraction : G → G × Float
  below_lt : ∀ (g : G) {bound : Nat}, 0 < bound → (below g bound).2 < bound

/-- A source that mixes a 64-bit state. -/
structure Generator where
  state : UInt64
deriving DecidableEq, Repr

namespace Generator

/-- The low half of a 128-bit product. -/
def low (n : Nat) : Nat := n % Word.count

/-- The high half of a 128-bit product. -/
def high (n : Nat) : Nat := n / Word.count

/-- The next 64-bit word. -/
def next (g : Generator) : Generator × UInt64 :=
  let state := g.state + 0x2d358dccaa6c78a5
  let product := state.toNat * (state ^^^ 0x8bb84b93962eacc9).toNat
  (⟨state⟩, (low product).toUInt64 ^^^ (high product).toUInt64)

/-- A draw is repeated at most this often. Half of all draws at least are accepted, so the bound is
not met in practice; it makes every draw end. -/
def maxRedraws : Nat := 256

/-- Redraws while the low half of `word * bound` is below `threshold`; `product` is the last one. -/
def redrawBelow (bound threshold : Nat) : Nat → Generator → Nat → Generator × Nat
  | 0, g, product => (g, high product)
  | fuel + 1, g, product =>
    if low product < threshold then
      let (g, word) := g.next
      redrawBelow bound threshold fuel g (word.toNat * bound)
    else (g, high product)

/-- A number below `bound`, all equally likely. -/
def below (g : Generator) (bound : Nat) : Generator × Nat :=
  let (g, word) := g.next
  let product := word.toNat * bound
  if low product < bound then
    redrawBelow bound ((Word.count - bound) % bound) maxRedraws g product
  else (g, high product)

/-- Draws until the fraction is below 1. -/
def fractionFor : Nat → Generator → Generator × Float
  | 0, g => (g, 0.0)
  | fuel + 1, g =>
    let (g, word) := g.next
    let x := (word >>> 1).toFloat * Float.ofBits 0x3c00000000000000
    if x < 1.0 then (g, x) else fractionFor fuel g

/-- A fraction in `[0, 1)`: 63 bits, rounded to a double. -/
def fraction (g : Generator) : Generator × Float :=
  fractionFor maxRedraws g

theorem high_lt {word : UInt64} {bound : Nat} (positive : 0 < bound) :
    high (word.toNat * bound) < bound := by
  have small : word.toNat < Word.count := word.toNat_lt
  unfold high
  rw [Nat.div_lt_iff_lt_mul (by decide), Nat.mul_comm bound]
  exact Nat.mul_lt_mul_of_pos_right small positive

theorem redrawBelow_lt {bound : Nat} (positive : 0 < bound) (threshold fuel : Nat) :
    ∀ (g : Generator) (product : Nat), high product < bound →
      (redrawBelow bound threshold fuel g product).2 < bound := by
  induction fuel with
  | zero => exact fun g product drawn => drawn
  | succ fuel ih =>
    intro g product drawn
    unfold redrawBelow
    split
    · exact ih _ _ (high_lt positive)
    · exact drawn

theorem below_lt (g : Generator) {bound : Nat} (positive : 0 < bound) :
    (g.below bound).2 < bound := by
  unfold below
  simp only
  split
  · exact redrawBelow_lt positive _ _ _ _ (high_lt positive)
  · exact high_lt positive

@[default_instance]
instance : RandomSource Generator where
  ofSeed seed := ⟨seed⟩
  below := below
  fraction := fraction
  below_lt := below_lt

end Generator

end ClauseLearning
