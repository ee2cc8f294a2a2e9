import ClauseLearning.Proofs.Restart.Sequence

/-!
# The Luby sequence in words

Segments have one element less than a power of two. The greatest segment whose size is a word has
all words below the greatest as positions, so doubling never has to go beyond it, and halving it
down to the element only leads to smaller numbers.

Main statement: at every position that is a word, except the greatest, the computation in words
gives the element of the Luby sequence. At the greatest the position itself cannot be counted from
1.
-/

namespace ClauseLearning.Luby

theorem segment_pos (k : Nat) : 0 < segment k := by
  have size := segment_eq k
  have two_le : 2 ≤ 2 ^ (k + 1) := Nat.le_self_pow (Nat.succ_ne_zero k) 2
  omega

/-- The order of the greatest segment that is a word is the last bit of a word. -/
theorem segment_width : segment (Word.width - 1) = Word.greatest := by decide

theorem segment_le_greatest {k : Nat} (narrow : k < Word.width) : segment k ≤ Word.greatest := by
  have powers : 2 ^ (k + 1) ≤ 2 ^ Word.width := Nat.pow_le_pow_right (by decide) narrow
  have size := segment_eq k
  have words : 2 ^ Word.width = Word.greatest + 1 := by decide
  omega

/-- Doubling stays within the words and ends with an element at the position. The induction is on
the orders that are left. -/
theorem climb?_eq_some {x : Nat} (word : x < Word.greatest) (left : Nat) :
    ∀ k, k + left + 1 = Word.width →
      ∃ j < Word.width, climb? x (segment k) k = some (segment j, j) ∧ x < segment j := by
  have counted : ¬Word.greatest < x + 1 := Nat.not_lt.2 word
  induction left with
  | zero =>
    intro k last
    obtain rfl : k = Word.width - 1 := Nat.eq_sub_of_add_eq last
    have inside : x < segment (Word.width - 1) := segment_width ▸ word
    refine ⟨Word.width - 1, by decide, ?_, inside⟩
    rw [climb?, if_neg counted, if_neg (Nat.not_lt.2 inside)]
  | succ left ih =>
    intro k more
    rw [climb?, if_neg counted]
    by_cases inside : x < segment k
    · rw [if_neg (Nat.not_lt.2 inside)]
      exact ⟨k, by omega, rfl, inside⟩
    -- The next segment is still a word, and so is its order.
    · have fits : segment (k + 1) ≤ Word.greatest := segment_le_greatest (by omega)
      have order : k + 1 ≤ greatestOrder := Nat.le_trans (by omega : k + 1 ≤ Word.width) (by decide)
      rw [if_pos (Nat.lt_succ_of_le (Nat.not_lt.1 inside)), ← segment_succ,
        if_neg (not_or.2 ⟨Nat.not_lt.2 fits, Nat.not_lt.2 order⟩)]
      exact ih (k + 1) (by omega)

/-- Halving a segment leads to its element at the position. -/
theorem descend?_eq_some (k : Nat) :
    ∀ x < segment k, k < Word.width → descend? (segment k) k x = some (element k x) := by
  induction k with
  | zero =>
    intro x inside narrow
    obtain rfl : x = 0 := Nat.lt_one_iff.1 inside
    rw [descend?, if_neg (by decide), if_pos (by decide), if_pos narrow]
    rfl
  | succ k ih =>
    intro x inside narrow
    have double := segment_succ k
    have positive := segment_pos k
    have half : (segment (k + 1) - 1) / 2 = segment k := by omega
    rw [descend?, if_neg (by omega), element]
    by_cases last : segment (k + 1) = x + 1
    · rw [if_pos (by omega), if_pos narrow, if_pos last]
    · rw [if_neg (by omega), half, if_neg (by omega), if_neg last, Nat.add_sub_cancel]
      exact ih _ (Nat.mod_lt x positive) (Nat.lt_of_succ_lt narrow)

/-- Computing in words gives the element of the sequence. -/
theorem luby?_eq_some {x : Nat} (word : x < Word.greatest) : luby? x = some (term (x + 1)) := by
  obtain ⟨j, narrow, climbed, inside⟩ := climb?_eq_some word (Word.width - 1) 0 rfl
  have first : segment 0 = 1 := by decide
  rw [first] at climbed
  unfold luby?
  rw [climbed, Option.bind_eq_bind, Option.bind_some, ← element_eq_term j x inside]
  exact descend?_eq_some j x inside narrow

theorem luby?_eq_none {x : Nat} (above : Word.greatest ≤ x) : luby? x = none := by
  unfold luby?
  rw [climb?, if_pos (Nat.lt_succ_of_le above)]
  rfl

/-- The sequence has `2 ^ k` at position `2 ^ (k + 1) - 1` and starts over after each power of two.
Its elements are those that intervals between restarts are made of. The computation in words gives
them at the positions that are words below the greatest, counted from 0, and at no others. -/
theorem follows_sequence :
    (∀ k, term (2 ^ (k + 1) - 1) = 2 ^ k) ∧
    (∀ {i k : Nat}, 2 ^ k ≤ i → i < 2 ^ (k + 1) - 1 → term i = term (i - 2 ^ k + 1)) ∧
    (∀ x, luby x = term (x + 1)) ∧
    ∀ x, luby? x = if x < Word.greatest then some (term (x + 1)) else none := by
  refine ⟨term_last, term_again, luby_eq_term, fun x => ?_⟩
  by_cases word : x < Word.greatest
  · rw [if_pos word, luby?_eq_some word]
  · rw [if_neg word, luby?_eq_none (Nat.not_lt.1 word)]

/-- The last element that can be computed is that of the greatest segment. -/
theorem follows_sequence_last :
    luby? (Word.greatest - 1) = some (2 ^ 63) ∧ luby? Word.greatest = none := by
  obtain ⟨last, -, -, computed⟩ := follows_sequence
  refine ⟨?_, ?_⟩
  · rw [computed, if_pos (by decide), ← last 63]
    rfl
  · rw [computed, if_neg (by decide)]

end ClauseLearning.Luby
