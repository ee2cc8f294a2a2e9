import Mathlib.Algebra.Group.Nat.Defs
import ClauseLearning.Restart.Luby

/-!
# The Luby sequence as it is defined

Counted from 1, the element at a position `2 ^ k - 1` is `2 ^ (k - 1)`, and between two such
positions the sequence starts over.

Main statement: what is computed by descending through the segments is this sequence.
-/

namespace ClauseLearning.Luby

/-- Where the sequence starts over, it does so at a lower position. At position 1 it does not. -/
theorem again_lt {i : Nat} (positive : i ≠ 0) (inner : i + 1 ≠ 2 ^ (i.log2 + 1)) :
    i - 2 ^ i.log2 + 1 < i := by
  have low : 2 ^ i.log2 ≤ i := Nat.log2_self_le positive
  have high : i < 2 ^ (i.log2 + 1) := Nat.lt_log2_self
  cases order : i.log2 with
  | zero =>
    rw [order] at high inner
    omega
  | succ k =>
    have two_le : 2 ≤ 2 ^ (k + 1) := Nat.le_self_pow (Nat.succ_ne_zero k) 2
    rw [order] at low
    omega

/-- The element of the Luby sequence at position `i`, counted from 1; position 0 is outside the
sequence. With `2 ^ k` for the greatest power of two up to `i`, the element is `2 ^ k` at the last
position before `2 ^ (k + 1)`, and elsewhere it is that of the sequence that starts over at
`2 ^ k`. -/
def term (i : Nat) : Nat :=
  if i = 0 then 0
  else if i + 1 = 2 ^ (i.log2 + 1) then 2 ^ i.log2
  else term (i - 2 ^ i.log2 + 1)
termination_by i
decreasing_by exact again_lt ‹_› ‹_›

theorem log2_eq {i k : Nat} (low : 2 ^ k ≤ i) (high : i < 2 ^ (k + 1)) : i.log2 = k :=
  (Nat.log2_eq_iff (Nat.ne_of_gt (Nat.lt_of_lt_of_le (Nat.two_pow_pos k) low))).2 ⟨low, high⟩

/-- At the last position before a power of two stands the power before. -/
theorem term_last (k : Nat) : term (2 ^ (k + 1) - 1) = 2 ^ k := by
  have doubled : 2 ^ (k + 1) = 2 * 2 ^ k := Nat.pow_succ'
  have positive := Nat.two_pow_pos k
  have order : (2 ^ (k + 1) - 1).log2 = k := log2_eq (by omega) (by omega)
  rw [term, order, if_neg (by omega), if_pos (by omega)]

/-- At any other position the sequence has started over. -/
theorem term_again {i k : Nat} (low : 2 ^ k ≤ i) (high : i < 2 ^ (k + 1) - 1) :
    term i = term (i - 2 ^ k + 1) := by
  have positive := Nat.two_pow_pos k
  have order : i.log2 = k := log2_eq low (by omega)
  rw [term, order, if_neg (by omega), if_neg (by omega)]

/-! ### Segments -/

theorem segment_succ (k : Nat) : segment (k + 1) = 2 * segment k + 1 := by
  have doubled : 2 ^ (k + 2) = 2 * 2 ^ (k + 1) := Nat.pow_succ'
  have positive := Nat.two_pow_pos (k + 1)
  simp only [segment, Nat.pow_eq]
  omega

theorem segment_eq (k : Nat) : segment k + 1 = 2 ^ (k + 1) :=
  Nat.sub_add_cancel (Nat.two_pow_pos _)

/-- Descending from any segment with an element at the position leads to the same element. -/
theorem element_eq_term (k : Nat) : ∀ x < segment k, element k x = term (x + 1) := by
  induction k with
  | zero =>
    intro x inside
    have first : x = 0 := Nat.lt_one_iff.1 inside
    subst first
    exact (term_last 0).symm
  | succ k ih =>
    intro x inside
    have size := segment_eq k
    have size_succ := segment_eq (k + 1)
    have double := segment_succ k
    rw [element]
    split
    next last =>
      rw [← last, Nat.eq_sub_of_add_eq size_succ, term_last]
      rfl
    next inner =>
      by_cases first : x < segment k
      -- The position is in the first copy of the smaller segment, or in the second.
      · rw [Nat.mod_eq_of_lt first, ih x first]
      · have second : x - segment k < segment k := by omega
        rw [Nat.mod_eq_sub_mod (Nat.not_lt.1 first), Nat.mod_eq_of_lt second, ih _ second,
          @term_again (x + 1) (k + 1) (by omega) (by omega)]
        congr 1
        omega

theorem segment_orderFrom {x : Nat} (fuel : Nat) :
    ∀ k, x < segment (k + fuel) → x < segment (orderFrom x fuel k) := by
  induction fuel with
  | zero => exact fun k inside => inside
  | succ fuel ih =>
    intro k inside
    rw [orderFrom]
    split
    next => exact ih (k + 1) (by rwa [Nat.succ_add_eq_add_succ])
    next reached => omega

/-- The segment that is looked for has an element at the position. -/
theorem lt_segment_order (x : Nat) : x < segment (order x) := by
  refine segment_orderFrom _ 0 ?_
  have above : x + 1 < 2 ^ ((x + 1).log2 + 1) := Nat.lt_log2_self
  have size := segment_eq (x + 1).log2
  rw [Nat.zero_add]
  omega

/-- The element computed at a position counted from 0 is that of the Luby sequence. -/
theorem luby_eq_term (x : Nat) : luby x = term (x + 1) :=
  element_eq_term _ x (lt_segment_order x)

/-! ### Bounds -/

theorem term_pos {i : Nat} (positive : 0 < i) : 0 < term i := by
  fun_induction term i with
  | case1 => exact positive
  | case2 => exact Nat.two_pow_pos _
  | case3 _ _ _ ih => exact ih (Nat.succ_pos _)

theorem term_le (i : Nat) : term i ≤ i := by
  fun_induction term i with
  | case1 => exact Nat.le_refl 0
  | case2 i positive _ => exact Nat.log2_self_le positive
  | case3 i positive inner ih => exact Nat.le_trans ih (Nat.le_of_lt (again_lt positive inner))

end ClauseLearning.Luby
