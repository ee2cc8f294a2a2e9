import Mathlib.Algebra.Order.Ring.Int
import Mathlib.Order.Compare
import ClauseLearning.Rank

/-!
# Ranks and the order of doubles

Ranks are made from the bits of doubles. Here they are compared with what `<`, `==` and `isNaN` say
about doubles, which is defined by way of sign, mantissa and exponent.

Without its sign, a double is a word of 63 bits: the exponent is in front of the mantissa, so a
greater magnitude has a greater word, infinity comes behind all finite numbers, and what is greater
still is not a number. Of two doubles with a sign the words count as signed numbers, with both zeros
equal.

Main statements: the rank by value orders doubles by value, with NaN behind everything else, and
takes numbers that are equal as equal; the rank by representation does the same but tells -0 from 0,
and different doubles have different ranks.
-/

namespace ClauseLearning.Rank

/-! ### Orders of doubles -/

/-- The value of `x` comes before that of `y`: it is less, or `y` alone is not a number. -/
def BelowByValue (x y : Float) : Prop :=
  x < y ∨ x.isNaN = false ∧ y.isNaN = true

/-- The values are equal numbers, or neither is a number. -/
def SameByValue (x y : Float) : Prop :=
  (x == y) = true ∨ x.isNaN = true ∧ y.isNaN = true

/-- The order by value, in which -0 comes before 0 besides. -/
def BelowByBits (x y : Float) : Prop :=
  BelowByValue x y ∨ x.toBits = signBit ∧ y.toBits = 0

instance (x y : Float) : Decidable (BelowByValue x y) :=
  inferInstanceAs (Decidable (x < y ∨ x.isNaN = false ∧ y.isNaN = true))

instance (x y : Float) : Decidable (SameByValue x y) :=
  inferInstanceAs (Decidable ((x == y) = true ∨ x.isNaN = true ∧ y.isNaN = true))

instance (x y : Float) : Decidable (BelowByBits x y) :=
  inferInstanceAs (Decidable (BelowByValue x y ∨ x.toBits = signBit ∧ y.toBits = 0))

/-! ### Reading the bits -/

open Float.Model Float.Model.UnpackedFloat

/-- Mantissa and exponent of a finite number whose word without the sign is `n`. Only the numbers
with the least exponent do without the leading bit of the mantissa. -/
structure Composes (mantissa : Nat) (exponent : Int) (n : Nat) : Prop where
  word_eq : (n : Int) = (exponent + 1074) * 2 ^ 52 + mantissa
  exponent_ge : -1074 ≤ exponent
  mantissa_lt : mantissa < 2 ^ 53
  leading : exponent ≠ -1074 → 2 ^ 52 ≤ mantissa

theorem Composes.pos {m n : Nat} {e : Int} (composes : Composes m e n) (positive : 0 < m) :
    0 < n := by
  obtain ⟨word_eq, exponent_ge, _, _⟩ := composes
  omega

/-- The double with a sign and a word without the sign. -/
inductive Reads : UnpackedFloat → Sign → Nat → Prop where
  | infinity {s : Sign} : Reads (.infinity s) s (2047 * 2 ^ 52)
  | notANumber {s : Sign} {n : Nat} (beyond : 2047 * 2 ^ 52 < n) : Reads .notANumber s n
  | zero {s : Sign} : Reads (.zero s) s 0
  | finite {s : Sign} {m n : Nat} {e : Int} {positive : 0 < m} (composes : Composes m e n)
      (below : n < 2047 * 2 ^ 52) : Reads (.finite s m e positive) s n

section

variable (b : BitVec Format.binary64.numBits)

theorem toNat_unpackMantissa : (unpackMantissa b).toNat = b.toNat % 2 ^ 52 := by
  simp [unpackMantissa]

theorem toNat_unpackExponent : (unpackExponent b).toNat = b.toNat % 2 ^ 63 / 2 ^ 52 := by
  simp only [unpackExponent, BitVec.toNat_cast, BitVec.extractLsb_toNat,
    Nat.shiftRight_eq_div_pow]
  omega

theorem ofBitVec_unpackSign :
    Sign.ofBitVec (unpackSign b) = if b.toNat < 2 ^ 63 then .positive else .negative := by
  have bounded : b.toNat < 2 ^ 64 := b.isLt
  have top : (unpackSign b).toNat = b.toNat / 2 ^ 63 := by
    change (b.toNat >>> 63) % 2 = b.toNat / 2 ^ 63
    rw [Nat.shiftRight_eq_div_pow]
    omega
  have clear : unpackSign b = 0#1 ↔ b.toNat < 2 ^ 63 := by
    rw [← BitVec.toNat_inj, top]
    simp
  simp only [Sign.ofBitVec, clear]

theorem unpackExponent_eq_neg_one_iff :
    unpackExponent b = -1#11 ↔ b.toNat % 2 ^ 63 / 2 ^ 52 = 2047 := by
  rw [← BitVec.toNat_inj, toNat_unpackExponent]
  rfl

theorem unpackExponent_eq_zero_iff :
    unpackExponent b = 0#11 ↔ b.toNat % 2 ^ 63 / 2 ^ 52 = 0 := by
  rw [← BitVec.toNat_inj, toNat_unpackExponent]
  rfl

theorem unpackMantissa_eq_zero_iff : unpackMantissa b = 0#52 ↔ b.toNat % 2 ^ 52 = 0 := by
  rw [← BitVec.toNat_inj, toNat_unpackMantissa]
  rfl

theorem toNat_one_append_unpackMantissa :
    (1#1 ++ unpackMantissa b).toNat = 2 ^ 52 + b.toNat % 2 ^ 52 := by
  rw [BitVec.toNat_append, toNat_unpackMantissa]
  exact (Nat.two_pow_add_eq_or_of_lt (i := 52) (Nat.mod_lt _ (by decide)) 1).symm

/-- A double is read from its word: the lower 63 bits are the word without the sign. -/
theorem reads_unpack :
    Reads (UnpackedFloat.unpack Format.binary64 b)
      (if b.toNat < 2 ^ 63 then .positive else .negative) (b.toNat % 2 ^ 63) := by
  have mantissa := toNat_unpackMantissa b
  have exponent := toNat_unpackExponent b
  have led := toNat_one_append_unpackMantissa b
  have bias : Format.binary64.exponentBias = 1023 := rfl
  rw [← ofBitVec_unpackSign]
  unfold UnpackedFloat.unpack
  dsimp only
  -- The greatest exponent is that of infinity and NaN, the least one has no leading bit.
  by_cases ones : b.toNat % 2 ^ 63 / 2 ^ 52 = 2047
  · rw [if_pos ((unpackExponent_eq_neg_one_iff b).2 ones)]
    by_cases empty : b.toNat % 2 ^ 52 = 0
    · rw [if_pos ((unpackMantissa_eq_zero_iff b).2 empty)]
      have word_eq : b.toNat % 2 ^ 63 = 2047 * 2 ^ 52 := by omega
      rw [word_eq]
      exact .infinity
    · rw [if_neg (mt (unpackMantissa_eq_zero_iff b).1 empty)]
      exact .notANumber (by omega)
  · rw [if_neg (mt (unpackExponent_eq_neg_one_iff b).1 ones)]
    by_cases least : b.toNat % 2 ^ 63 / 2 ^ 52 = 0
    · rw [if_pos ((unpackExponent_eq_zero_iff b).2 least)]
      by_cases empty : b.toNat % 2 ^ 52 = 0
      · rw [dif_pos ((unpackMantissa_eq_zero_iff b).2 empty)]
        have word_eq : b.toNat % 2 ^ 63 = 0 := by omega
        rw [word_eq]
        exact .zero
      · rw [dif_neg (mt (unpackMantissa_eq_zero_iff b).1 empty)]
        refine .finite ⟨?_, ?_, ?_, ?_⟩ (by omega) <;> simp only [mantissa, exponent, bias] <;>
          omega
    · rw [if_neg (mt (unpackExponent_eq_zero_iff b).1 least)]
      refine .finite ⟨?_, ?_, ?_, ?_⟩ (by omega) <;> simp only [led, exponent, bias] <;> omega

end

/-! ### Comparing -/

/-- With the leading bit where it belongs, comparing exponents and then mantissas is comparing
words. -/
theorem compare_of_composes {m₁ m₂ n₁ n₂ : Nat} {e₁ e₂ : Int} (first : Composes m₁ e₁ n₁)
    (second : Composes m₂ e₂ n₂) :
    (compare e₁ e₂).then (compare m₁ m₂) = compare (n₁ : Int) n₂ := by
  obtain ⟨word₁, least₁, short₁, leading₁⟩ := first
  obtain ⟨word₂, least₂, short₂, leading₂⟩ := second
  rcases lt_trichotomy e₁ e₂ with less | rfl | greater
  · have below : (n₁ : Int) < n₂ := by omega
    rw [compare_lt_iff_lt.2 less, compare_lt_iff_lt.2 below, Ordering.lt_then]
  · rw [compare_eq_iff_eq.2 rfl, Ordering.eq_then]
    rcases lt_trichotomy m₁ m₂ with less | rfl | greater
    · have below : (n₁ : Int) < n₂ := by omega
      rw [compare_lt_iff_lt.2 less, compare_lt_iff_lt.2 below]
    · have same : (n₁ : Int) = n₂ := by omega
      rw [compare_eq_iff_eq.2 rfl, compare_eq_iff_eq.2 same]
    · have above : (n₁ : Int) > n₂ := by omega
      rw [compare_gt_iff_gt.2 greater, compare_gt_iff_gt.2 above]
  · have above : (n₁ : Int) > n₂ := by omega
    rw [compare_gt_iff_gt.2 greater, compare_gt_iff_gt.2 above, Ordering.gt_then]

theorem compare_neg_neg (a b : Int) : compare (-a) (-b) = (compare a b).swap := by
  rcases lt_trichotomy a b with less | rfl | greater
  · rw [compare_lt_iff_lt.2 less, compare_gt_iff_gt.2 (Int.neg_lt_neg less), Ordering.swap_lt]
  · rw [compare_eq_iff_eq.2 rfl, compare_eq_iff_eq.2 rfl, Ordering.swap_eq]
  · rw [compare_gt_iff_gt.2 greater, compare_lt_iff_lt.2 (Int.neg_lt_neg greater), Ordering.swap_gt]

theorem some_lt_of_lt {a b : Int} (less : a < b) : some Ordering.lt = some (compare a b) := by
  rw [compare_lt_iff_lt.2 less]

theorem some_gt_of_gt {a b : Int} (greater : a > b) : some Ordering.gt = some (compare a b) := by
  rw [compare_gt_iff_gt.2 greater]

section

variable {u v : UnpackedFloat} {s t : Sign} {m n : Nat}

theorem compare_infinity (reads : Reads v t n) (number : n ≤ 2047 * 2 ^ 52) :
    (UnpackedFloat.infinity s).compare v =
      some (compare (s.apply (2047 * 2 ^ 52 : Nat)) (t.apply n)) := by
  cases reads with
  | notANumber beyond => exact absurd number (Nat.not_le.2 beyond)
  | infinity => cases s <;> cases t <;> rfl
  | zero =>
    cases s with
    | negative => exact some_lt_of_lt (by cases t <;> decide)
    | positive => exact some_gt_of_gt (by cases t <;> decide)
  | finite composes below =>
    cases s with
    | negative => exact some_lt_of_lt (by cases t <;> simp only [Sign.apply] <;> omega)
    | positive => exact some_gt_of_gt (by cases t <;> simp only [Sign.apply] <;> omega)

theorem compare_zero (reads : Reads v t n) (number : n ≤ 2047 * 2 ^ 52) :
    (UnpackedFloat.zero s).compare v = some (compare (s.apply (0 : Nat)) (t.apply n)) := by
  cases reads with
  | notANumber beyond => exact absurd number (Nat.not_le.2 beyond)
  | infinity =>
    cases t with
    | negative => exact some_gt_of_gt (by cases s <;> decide)
    | positive => exact some_lt_of_lt (by cases s <;> decide)
  | zero => cases s <;> cases t <;> rfl
  | @finite _ _ _ _ positive composes below =>
    have beyond := composes.pos positive
    cases t with
    | negative => exact some_gt_of_gt (by cases s <;> simp only [Sign.apply] <;> omega)
    | positive => exact some_lt_of_lt (by cases s <;> simp only [Sign.apply] <;> omega)

theorem compare_finite {mantissa : Nat} {exponent : Int} {positive : 0 < mantissa}
    (composes : Composes mantissa exponent m) (below : m < 2047 * 2 ^ 52) (reads : Reads v t n)
    (number : n ≤ 2047 * 2 ^ 52) :
    (UnpackedFloat.finite s mantissa exponent positive).compare v =
      some (compare (s.apply m) (t.apply n)) := by
  have beyond := composes.pos positive
  cases reads with
  | notANumber beyond => exact absurd number (Nat.not_le.2 beyond)
  | infinity =>
    cases t with
    | negative => cases s <;> exact some_gt_of_gt (by simp only [Sign.apply]; omega)
    | positive => cases s <;> exact some_lt_of_lt (by simp only [Sign.apply]; omega)
  | zero =>
    cases s with
    | negative => exact some_lt_of_lt (by cases t <;> simp only [Sign.apply] <;> omega)
    | positive => exact some_gt_of_gt (by cases t <;> simp only [Sign.apply] <;> omega)
  | @finite _ _ _ _ positive' composes' below' =>
    have beyond' := composes'.pos positive'
    have words := compare_of_composes composes composes'
    -- Words only matter between numbers of one sign, and count backwards below zero.
    cases s <;> cases t
    · exact congrArg some ((congrArg Ordering.swap words).trans (compare_neg_neg _ _).symm)
    · exact some_lt_of_lt (by simp only [Sign.apply]; omega)
    · exact some_gt_of_gt (by simp only [Sign.apply]; omega)
    · exact congrArg some words

/-- What is read as numbers is compared as the words are with their signs. -/
theorem compare_of_reads (first : Reads u s m) (second : Reads v t n)
    (number₁ : m ≤ 2047 * 2 ^ 52) (number₂ : n ≤ 2047 * 2 ^ 52) :
    u.compare v = some (compare (s.apply m) (t.apply n)) := by
  cases first with
  | notANumber beyond => exact absurd number₁ (Nat.not_le.2 beyond)
  | infinity => exact compare_infinity second number₂
  | zero => exact compare_zero second number₂
  | finite composes below => exact compare_finite composes below second number₂

theorem isNaN_of_reads (reads : Reads u s n) : u.isNaN = true ↔ 2047 * 2 ^ 52 < n := by
  cases reads with
  | infinity => exact iff_of_false Bool.false_ne_true (Nat.lt_irrefl _)
  | notANumber beyond => exact iff_of_true rfl beyond
  | zero => exact iff_of_false Bool.false_ne_true (Nat.not_lt_zero _)
  | finite composes below => exact iff_of_false Bool.false_ne_true (by omega)

theorem compare_of_isNaN (unordered : u.isNaN = true ∨ v.isNaN = true) : u.compare v = none := by
  rcases unordered with unordered | unordered
  · cases u with
    | notANumber => rfl
    | _ => cases unordered
  · cases v with
    | notANumber => cases u <;> rfl
    | _ => cases unordered

end

/-! ### Words with a sign -/

/-- The word as a signed number. -/
def signed (x : Float) : Int :=
  if x.toBits.toNat < 2 ^ 63 then x.toBits.toNat else 2 ^ 63 - x.toBits.toNat

/-- The place in the order by value: the signed number, or the last place. -/
def place (x : Float) : Int := if x.isNaN then 2 ^ 63 - 1 else signed x

section

variable {x y : Float}

theorem isNaN_iff : x.isNaN = true ↔ 2047 * 2 ^ 52 < x.toBits.toNat % 2 ^ 63 :=
  isNaN_of_reads (reads_unpack x.toBits.toBitVec)

theorem isNaN_eq_false_iff : x.isNaN = false ↔ x.toBits.toNat % 2 ^ 63 ≤ 2047 * 2 ^ 52 := by
  rw [← Bool.not_eq_true, isNaN_iff, Nat.not_lt]

/-- There is one representation of what is not a number, with the sign bit clear. -/
theorem toNat_toBits_of_isNaN (unordered : x.isNaN = true) :
    x.toBits.toNat = 0x7ff8000000000000 := by
  have bounded : x.toBits.toNat < 2 ^ 64 := x.toBits.toNat_lt
  have beyond := isNaN_iff.1 unordered
  have ones : x.toBits.toNat % 2 ^ 63 / 2 ^ 52 = 2047 := by omega
  have nonzero : x.toBits.toNat % 2 ^ 52 ≠ 0 := by omega
  have packed := x.toModel.valid.eq_packedNaN ((unpackExponent_eq_neg_one_iff _).2 ones)
    fun empty => nonzero ((unpackMantissa_eq_zero_iff _).1 empty)
  exact congrArg BitVec.toNat packed

theorem signed_le (number : x.isNaN = false) : signed x ≤ 2047 * 2 ^ 52 := by
  have finite := isNaN_eq_false_iff.1 number
  unfold signed
  split <;> omega

theorem place_of_isNaN (unordered : x.isNaN = true) : place x = 2 ^ 63 - 1 := if_pos unordered

theorem place_of_isNaN_eq_false (number : x.isNaN = false) : place x = signed x :=
  if_neg (Bool.eq_false_iff.1 number)

/-- Numbers keep their order, and the last place is behind all of them. -/
theorem place_cases (x : Float) :
    x.isNaN = false ∧ place x = signed x ∧ place x < 2 ^ 63 - 1 ∨
      x.isNaN = true ∧ place x = 2 ^ 63 - 1 := by
  cases unordered : x.isNaN with
  | false =>
    have before := signed_le unordered
    have at_x := place_of_isNaN_eq_false unordered
    exact .inl ⟨rfl, at_x, by omega⟩
  | true => exact .inr ⟨rfl, place_of_isNaN unordered⟩

theorem signed_eq_apply :
    signed x = (if x.toBits.toNat < 2 ^ 63 then Sign.positive else Sign.negative).apply
      (x.toBits.toNat % 2 ^ 63 : Nat) := by
  have bounded : x.toBits.toNat < 2 ^ 64 := x.toBits.toNat_lt
  unfold signed
  split
  · simp only [Sign.apply]
    omega
  · simp only [Sign.apply]
    omega

theorem compare_unpack (number₁ : x.isNaN = false) (number₂ : y.isNaN = false) :
    x.toModel.unpack.compare y.toModel.unpack = some (compare (signed x) (signed y)) := by
  rw [signed_eq_apply, signed_eq_apply]
  exact compare_of_reads (reads_unpack x.toBits.toBitVec) (reads_unpack y.toBits.toBitVec)
    (isNaN_eq_false_iff.1 number₁) (isNaN_eq_false_iff.1 number₂)

theorem lt_iff_compare : x < y ↔ x.toModel.unpack.compare y.toModel.unpack = some .lt := by
  change decide (x.toModel.unpack.lt y.toModel.unpack = true) = true ↔ _
  rw [decide_eq_true_iff]
  exact beq_iff_eq

theorem beq_iff_compare :
    (x == y) = true ↔ x.toModel.unpack.compare y.toModel.unpack = some .eq := by
  change x.toModel.unpack.beq y.toModel.unpack = true ↔ _
  exact beq_iff_eq

/-- A comparison has a result for numbers only. -/
theorem compare_eq_some_iff {o : Ordering} :
    x.toModel.unpack.compare y.toModel.unpack = some o ↔
      x.isNaN = false ∧ y.isNaN = false ∧ compare (signed x) (signed y) = o := by
  by_cases unordered : x.isNaN = true ∨ y.isNaN = true
  · rw [compare_of_isNaN unordered]
    refine iff_of_false nofun ?_
    rintro ⟨number₁, number₂, _⟩
    rw [number₁, number₂, or_self] at unordered
    cases unordered
  · rw [not_or, Bool.not_eq_true, Bool.not_eq_true] at unordered
    obtain ⟨number₁, number₂⟩ := unordered
    rw [compare_unpack number₁ number₂, Option.some.injEq]
    exact ⟨fun same => ⟨number₁, number₂, same⟩, fun ordered => ordered.2.2⟩

theorem lt_iff : x < y ↔ x.isNaN = false ∧ y.isNaN = false ∧ signed x < signed y := by
  rw [lt_iff_compare, compare_eq_some_iff, compare_lt_iff_lt]

theorem beq_iff : (x == y) = true ↔ x.isNaN = false ∧ y.isNaN = false ∧ signed x = signed y := by
  rw [beq_iff_compare, compare_eq_some_iff, compare_eq_iff_eq]

theorem belowByValue_iff : BelowByValue x y ↔ place x < place y := by
  unfold BelowByValue
  rw [lt_iff]
  rcases place_cases x with ⟨number₁, at_x, before₁⟩ | ⟨unordered₁, at_x⟩
  · rcases place_cases y with ⟨number₂, at_y, before₂⟩ | ⟨unordered₂, at_y⟩
    · rw [number₁, number₂, at_x, at_y]
      simp only [true_and, Bool.false_eq_true, and_false, or_false]
    · rw [at_y]
      exact iff_of_true (.inr ⟨number₁, unordered₂⟩) before₁
  -- Nothing comes after the last place.
  · have last : place y ≤ place x := by
      rcases place_cases y with ⟨_, _, before₂⟩ | ⟨_, at_y⟩ <;> omega
    rw [unordered₁]
    refine iff_of_false ?_ (Int.not_lt.2 last)
    rintro (⟨⟨⟩, _⟩ | ⟨⟨⟩, _⟩)

theorem sameByValue_iff : SameByValue x y ↔ place x = place y := by
  unfold SameByValue
  rw [beq_iff]
  rcases place_cases x with ⟨number₁, at_x, before₁⟩ | ⟨unordered₁, at_x⟩
  · rcases place_cases y with ⟨number₂, at_y, before₂⟩ | ⟨unordered₂, at_y⟩
    · rw [number₁, number₂, at_x, at_y]
      simp only [true_and, Bool.false_eq_true, and_false, or_false]
    · rw [number₁, unordered₂, at_y]
      refine iff_of_false ?_ (Int.ne_of_lt before₁)
      rintro (⟨_, ⟨⟩, _⟩ | ⟨⟨⟩, _⟩)
  · rcases place_cases y with ⟨number₂, at_y, before₂⟩ | ⟨unordered₂, at_y⟩
    · rw [unordered₁, number₂, at_x]
      refine iff_of_false ?_ (Int.ne_of_gt before₂)
      rintro (⟨⟨⟩, _⟩ | ⟨_, ⟨⟩⟩)
    · rw [at_x, at_y]
      exact iff_of_true (.inr ⟨unordered₁, unordered₂⟩) rfl

end

/-! ### Ranks as numbers -/

section

variable (b : UInt64)

theorem and_signBit_eq_zero_iff : b &&& signBit = 0 ↔ b.toNat < 2 ^ 63 := by
  have bounded : b.toNat < 2 ^ 64 := b.toNat_lt
  have top : (b.toNat &&& 2 ^ 63) / 2 ^ 63 = b.toNat / 2 ^ 63 % 2 := by
    rw [Nat.and_div_two_pow, Nat.div_self (by decide), Nat.and_one_is_mod]
  have rest : (b.toNat &&& 2 ^ 63) % 2 ^ 63 = 0 := by
    rw [Nat.and_mod_two_pow, Nat.mod_self, Nat.and_zero]
  rw [← UInt64.toNat_inj, UInt64.toNat_and]
  -- What is left of the word is its highest bit or nothing.
  change b.toNat &&& 2 ^ 63 = 0 ↔ _
  omega

theorem toNat_and_not_signBit : (b &&& ~~~signBit).toNat = b.toNat % 2 ^ 63 := by
  rw [UInt64.toNat_and, ← Nat.and_two_pow_sub_one_eq_mod]
  rfl

theorem toNat_or_signBit (clear : b.toNat < 2 ^ 63) : (b ||| signBit).toNat = 2 ^ 63 + b.toNat := by
  rw [UInt64.toNat_or, Nat.or_comm]
  exact (Nat.two_pow_add_eq_or_of_lt (i := 63) clear 1).symm

end

section

variable (x y : Float)

theorem toNat_ofValue : ((ofValue x).toNat : Int) = 2 ^ 63 + place x := by
  have bounded : x.toBits.toNat < 2 ^ 64 := x.toBits.toNat_lt
  have top : signBit.toNat = 2 ^ 63 := rfl
  have unordered_iff : infinityBits < x.toBits &&& ~~~signBit ↔ x.isNaN = true := by
    rw [UInt64.lt_iff_toNat_lt, toNat_and_not_signBit, isNaN_iff]
    rfl
  simp only [ofValue, place, unordered_iff]
  split
  next => rfl
  next number =>
    have finite := isNaN_eq_false_iff.1 (Bool.eq_false_iff.2 number)
    simp only [and_signBit_eq_zero_iff, signed]
    split
    next clear =>
      rw [UInt64.toNat_add, toNat_and_not_signBit, top]
      omega
    next set =>
      have smaller : x.toBits &&& ~~~signBit ≤ signBit := by
        rw [UInt64.le_iff_toNat_le, toNat_and_not_signBit, top]
        omega
      rw [UInt64.toNat_sub_of_le _ _ smaller, toNat_and_not_signBit, top]
      omega

theorem toNat_ofBits :
    (ofBits x).toNat =
      if x.toBits.toNat < 2 ^ 63 then 2 ^ 63 + x.toBits.toNat
      else 2 ^ 64 - 1 - x.toBits.toNat := by
  simp only [ofBits, and_signBit_eq_zero_iff]
  split
  next clear => exact toNat_or_signBit _ clear
  next => exact UInt64.toNat_not _

theorem toNat_ofBits_of_isNaN {x : Float} (unordered : x.isNaN = true) :
    (ofBits x).toNat = 0xfff8000000000000 := by
  rw [toNat_ofBits, toNat_toBits_of_isNaN unordered]
  rfl

end

/-! ### Main statements -/

section

variable (x y : Float)

theorem ofValue_lt_iff : ofValue x < ofValue y ↔ BelowByValue x y := by
  have first := toNat_ofValue x
  have second := toNat_ofValue y
  rw [UInt64.lt_iff_toNat_lt, belowByValue_iff]
  omega

theorem ofValue_eq_iff : ofValue x = ofValue y ↔ SameByValue x y := by
  have first := toNat_ofValue x
  have second := toNat_ofValue y
  rw [← UInt64.toNat_inj, sameByValue_iff]
  omega

theorem ofBits_lt_iff : ofBits x < ofBits y ↔ BelowByBits x y := by
  have bounded₁ : x.toBits.toNat < 2 ^ 64 := x.toBits.toNat_lt
  have bounded₂ : y.toBits.toNat < 2 ^ 64 := y.toBits.toNat_lt
  have zeros : x.toBits = signBit ∧ y.toBits = 0 ↔
      x.toBits.toNat = 2 ^ 63 ∧ y.toBits.toNat = 0 := by
    rw [← UInt64.toNat_inj, ← UInt64.toNat_inj]
    rfl
  unfold BelowByBits
  rw [belowByValue_iff, UInt64.lt_iff_toNat_lt, zeros]
  -- Below zero the words are turned around, and both zeros have a word of their own.
  cases first : x.isNaN with
  | false =>
    have finite₁ := isNaN_eq_false_iff.1 first
    rw [place_of_isNaN_eq_false first, toNat_ofBits x, signed]
    cases second : y.isNaN with
    | false =>
      have finite₂ := isNaN_eq_false_iff.1 second
      rw [place_of_isNaN_eq_false second, toNat_ofBits y, signed]
      split <;> split <;> omega
    | true =>
      have word := toNat_toBits_of_isNaN second
      rw [place_of_isNaN second, toNat_ofBits_of_isNaN second]
      split <;> omega
  | true =>
    have word := toNat_toBits_of_isNaN first
    rw [place_of_isNaN first, toNat_ofBits_of_isNaN first]
    cases second : y.isNaN with
    | false =>
      have finite₂ := isNaN_eq_false_iff.1 second
      rw [place_of_isNaN_eq_false second, toNat_ofBits y, signed]
      split <;> omega
    | true =>
      rw [place_of_isNaN second, toNat_ofBits_of_isNaN second]
      omega

theorem ofBits_inj : ofBits x = ofBits y ↔ x = y := by
  have bounded₁ : x.toBits.toNat < 2 ^ 64 := x.toBits.toNat_lt
  have bounded₂ : y.toBits.toNat < 2 ^ 64 := y.toBits.toNat_lt
  constructor
  · intro same
    have ranks : (ofBits x).toNat = (ofBits y).toNat := congrArg UInt64.toNat same
    have words : x.toBits.toNat = y.toBits.toNat := by
      rw [toNat_ofBits, toNat_ofBits] at ranks
      split at ranks <;> split at ranks <;> omega
    obtain ⟨⟨bits₁, valid₁⟩⟩ := x
    obtain ⟨⟨bits₂, valid₂⟩⟩ := y
    obtain rfl : bits₁ = bits₂ := UInt64.toNat_inj.1 words
    rfl
  · rintro rfl
    rfl

end

end ClauseLearning.Rank
