import Std.Data.TreeMap
import ClauseLearning.Sorting

/-!
# Variables and literals

A literal is a variable together with a polarity. The two literals of variable `v` have the adjacent
codes `2 * v` and `2 * v + 1`, so a literal can index a dense table directly, and sorting by code
puts complementary literals side by side.

A code is a 32-bit word, so only variables below `2 ^ 31` have literals of their own: a code keeps
the low 31 bits of the variable it is made for. What is done with a code by shifting and masking is
proved to be what is done with the variable and the polarity that are read from it.
-/

namespace ClauseLearning

/-- Variables are numbered from 1; number 0 belongs to no formula. -/
abbrev Variable := Nat

/-- Literals exist for the variables below this bound. -/
def literalBound : Nat := 0x80000000

/-- A variable (`polarity = true`) or its negation (`polarity = false`). -/
structure Literal where
  var : Variable
  polarity : Bool
deriving DecidableEq, Repr, Inhabited

/-- A literal as a word: the variable above the lowest bit, which is set in a negated literal. -/
structure Code where
  word : UInt32
deriving DecidableEq, Repr

namespace Code

def ofVar (v : UInt32) (b : Bool) : Code :=
  if b then ⟨v <<< 1⟩ else ⟨v <<< 1 ||| 1⟩

def var (c : Code) : UInt32 :=
  c.word >>> 1

def polarity (c : Code) : Bool :=
  c.word &&& 1 == 0

protected def neg (c : Code) : Code :=
  ⟨c.word ^^^ 1⟩

instance : Neg Code := ⟨Code.neg⟩

def index (c : Code) : Nat :=
  c.word.toNat

/-- The variable and the polarity that a code stands for. -/
def literal (c : Code) : Literal :=
  ⟨c.var.toNat, c.polarity⟩

end Code

namespace Literal

/-- The literal of variable `v` with polarity `b`, by way of its code: of `v` only the low 31 bits
are kept. -/
def ofVar (v : Variable) (b : Bool) : Literal :=
  (Code.ofVar v.toUInt32 b).literal

protected def neg (l : Literal) : Literal :=
  ⟨l.var, !l.polarity⟩

instance : Neg Literal := ⟨Literal.neg⟩

/-- The code of a literal: its place in tables with one entry per literal. -/
def index (l : Literal) : Nat :=
  2 * l.var + (if l.polarity then 0 else 1)

/-- The literal written as a signed number; 0 and numbers of `2 ^ 31` or more in size name none. -/
def ofInt? (z : Int) : Option Literal :=
  if z.natAbs = 0 ∨ literalBound ≤ z.natAbs then none
  else some ⟨z.natAbs, decide (0 < z)⟩

def toInt (l : Literal) : Int :=
  if l.polarity then (l.var : Int) else -(l.var : Int)

/-- The written form: the variable, behind a minus sign when negated. -/
def text (l : Literal) : String :=
  if l.polarity then toString l.var else "-" ++ toString l.var

def le (a b : Literal) : Bool :=
  decide (a.index ≤ b.index)

/-- A list of literals in the order of their codes. -/
def sort (ls : List Literal) : List Literal :=
  sortBy le ls

@[simp] theorem neg_var (l : Literal) : (-l).var = l.var := rfl

@[simp] theorem neg_polarity (l : Literal) : (-l).polarity = !l.polarity := rfl

@[simp] theorem neg_neg (l : Literal) : - -l = l := by
  cases l; simp [Neg.neg, Literal.neg]

theorem neg_ne_self (l : Literal) : -l ≠ l := by
  intro same
  have polarity := congrArg Literal.polarity same
  simp at polarity

theorem sort_perm (ls : List Literal) : (sort ls).Perm ls :=
  sortBy_perm le ls

theorem pairwise_sort (ls : List Literal) : (sort ls).Pairwise fun a b => a.index ≤ b.index := by
  have transitive : ∀ a b c : Literal, le a b = true → le b c = true → le a c = true := by
    simp only [le, decide_eq_true_eq]
    intro a b c
    exact Nat.le_trans
  have total : ∀ a b : Literal, (le a b || le b a) = true := by
    simp only [le, Bool.or_eq_true, decide_eq_true_eq]
    intro a b
    exact Nat.le_total _ _
  exact (pairwise_sortBy transitive total ls).imp of_decide_eq_true

/-- The two literals of a variable have neighbouring codes. -/
theorem index_div_two (l : Literal) : l.index / 2 = l.var := by
  unfold index
  split <;> omega

theorem index_mod_two (l : Literal) : l.index % 2 = if l.polarity then 0 else 1 := by
  unfold index
  split <;> omega

theorem index_injective {a b : Literal} (same : a.index = b.index) : a = b := by
  have var : a.var = b.var := by rw [← index_div_two a, ← index_div_two b, same]
  have parity := index_mod_two a
  rw [same, index_mod_two b] at parity
  rcases a with ⟨v, p⟩
  rcases b with ⟨w, q⟩
  cases p <;> cases q <;> simp_all

/-- Literals are in the order of their codes. -/
instance : Ord Literal := ⟨compareOn index⟩

instance : Std.TransOrd Literal := inferInstanceAs (Std.TransCmp (compareOn index))

instance : Std.LawfulEqOrd Literal where
  eq_of_compare same := index_injective (Std.LawfulEqOrd.eq_of_compare same)

theorem natAbs_toInt (l : Literal) : l.toInt.natAbs = l.var := by
  unfold toInt
  split <;> omega

/-- Reading the signed number of a literal gives the literal back. -/
theorem ofInt?_toInt {l : Literal} (positive : 0 < l.var) (represented : l.var < literalBound) :
    ofInt? l.toInt = some l := by
  have sign : decide (0 < l.toInt) = l.polarity := by
    unfold toInt
    cases l.polarity with
    | true => simpa using positive
    | false => simp
  have inRange : ¬(l.var = 0 ∨ literalBound ≤ l.var) :=
    not_or.2 ⟨Nat.ne_of_gt positive, Nat.not_le.2 represented⟩
  simp [ofInt?, natAbs_toInt, sign, inRange]

end Literal

/-! ### Codes -/

namespace Code

theorem toNat_var (c : Code) : c.var.toNat = c.index / 2 := by
  simp [var, index, Nat.shiftRight_eq_div_pow]

theorem polarity_eq (c : Code) : c.polarity = (c.index % 2 == 0) := by
  have lowest : (c.word &&& 1).toNat = c.index % 2 := by
    rw [UInt32.toNat_and]
    exact Nat.and_one_is_mod _
  rw [polarity, Bool.eq_iff_iff, beq_iff_eq, beq_iff_eq, ← UInt32.toNat_inj, lowest]
  rfl

/-- The top bit of a variable is lost when a code is made. -/
theorem index_ofVar (v : UInt32) (b : Bool) :
    (ofVar v b).index = 2 * (v.toNat % literalBound) + (if b then 0 else 1) := by
  have shifted : (v <<< 1).toNat = 2 * (v.toNat % literalBound) := by
    have doubled : (v <<< 1).toNat = v.toNat * 2 % 2 ^ 32 := by
      rw [UInt32.toNat_shiftLeft, Nat.shiftLeft_eq]
      rfl
    rw [doubled, literalBound]
    omega
  cases b with
  | true => exact shifted
  | false =>
    -- The lowest bit of the shifted word is free, so setting it adds one.
    have set : (v <<< 1 ||| 1).toNat = 2 * (v.toNat % literalBound) + 1 := by
      rw [UInt32.toNat_or, shifted]
      exact (Nat.two_pow_add_eq_or_of_lt (i := 1) (by decide) _).symm
    exact set

theorem literal_ofVar (v : UInt32) (b : Bool) :
    (ofVar v b).literal = ⟨v.toNat % literalBound, b⟩ := by
  rw [literal, toNat_var, polarity_eq, index_ofVar]
  cases b with
  | true => simp
  | false =>
    have halved : (2 * (v.toNat % literalBound) + 1) / 2 = v.toNat % literalBound := by omega
    simp [halved]

/-- Flipping the lowest bit of a code gives the complement. -/
theorem literal_neg (c : Code) : (-c).literal = -c.literal := by
  have flipped : (-c).index = c.index ^^^ 1 := UInt32.toNat_xor ..
  have var : (-c).index / 2 = c.index / 2 := by
    rw [flipped, Nat.xor_div_two]
    exact Nat.xor_zero _
  have parity : (-c).index % 2 = 1 ↔ ¬c.index % 2 = 1 := by
    rw [flipped, Nat.xor_mod_two_eq_one]
    simp
  have polarity : ((-c).index % 2 == 0) = !(c.index % 2 == 0) := by
    rw [Bool.eq_iff_iff]
    simp only [beq_iff_eq, Bool.not_eq_true', beq_eq_false_iff_ne]
    omega
  simp only [literal, toNat_var, polarity_eq, var, polarity]
  rfl

/-- The code of a literal is the place of the literal in tables. -/
theorem index_literal (c : Code) : c.literal.index = c.index := by
  simp only [literal, Literal.index, toNat_var, polarity_eq, beq_iff_eq]
  split <;> omega

/-- A literal has one code at most. -/
theorem literal_injective {a b : Code} (same : a.literal = b.literal) : a = b := by
  have index : a.index = b.index := by rw [← index_literal a, ← index_literal b, same]
  exact congrArg Code.mk (UInt32.toNat_inj.1 index)

/-- Codes are in the order in which their literals are sorted. -/
theorem le_literal (a b : Code) : Literal.le a.literal b.literal = decide (a.word ≤ b.word) := by
  rw [Literal.le, index_literal, index_literal]
  rfl

end Code

namespace Literal

theorem ofVar_eq {v : Variable} (word : v < UInt32.size) (b : Bool) :
    ofVar v b = ⟨v % literalBound, b⟩ := by
  rw [ofVar, Code.literal_ofVar, UInt32.toNat_ofNat_of_lt' word]

theorem ofVar_of_lt {v : Variable} (represented : v < literalBound) (b : Bool) :
    ofVar v b = ⟨v, b⟩ := by
  rw [ofVar_eq (Nat.lt_trans represented (by decide)), Nat.mod_eq_of_lt represented]

/-- A number is read as the literal of its size and sign. -/
theorem ofInt?_eq (z : Int) :
    ofInt? z = if z.natAbs = 0 ∨ literalBound ≤ z.natAbs then none
      else some (ofVar z.natAbs (decide (0 < z))) := by
  unfold ofInt?
  split
  next => rfl
  next inside => rw [ofVar_of_lt (Nat.not_le.1 (not_or.1 inside).2)]

end Literal

end ClauseLearning
