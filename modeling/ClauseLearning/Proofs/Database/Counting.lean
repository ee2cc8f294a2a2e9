import ClauseLearning.Proofs.Database.Index
import Mathlib.Data.Fintype.BigOperators
import Mathlib.Data.Fintype.Option

/-!
# How many clauses there are

In a clause each variable is positive, negative or absent, so there are `3 ^ n` clauses over `n`
variables up to the order of literals.

Main statement: a formula whose learnt clauses are no rearrangements of each other has at most
`3 ^ n` of them.
-/

namespace ClauseLearning

/-- How the variables `1, …, n` occur in a list of literals. -/
def signs (n : Nat) (ls : List Literal) (i : Fin n) : Option Bool :=
  if ⟨i + 1, true⟩ ∈ ls then some true
  else if ⟨i + 1, false⟩ ∈ ls then some false
  else none

theorem signs_eq_some {n : Nat} {ls : List Literal} (distinct : (ls.map Literal.var).Nodup)
    (i : Fin n) (b : Bool) : signs n ls i = some b ↔ ⟨i + 1, b⟩ ∈ ls := by
  -- The two literals of a variable are not both there.
  have not_both : ⟨i + 1, true⟩ ∈ ls → ⟨i + 1, false⟩ ∉ ls := by
    intro positive negative
    have same := List.inj_on_of_nodup_map distinct positive negative rfl
    cases same
  unfold signs
  by_cases positive : ⟨i + 1, true⟩ ∈ ls
  · cases b <;> simp [positive, not_both]
  · by_cases negative : ⟨i + 1, false⟩ ∈ ls
    · cases b <;> simp [positive, negative]
    · cases b <;> simp [positive, negative]

/-- Lists in which the variables occur in the same way are rearrangements of each other. -/
theorem perm_of_signs_eq {n : Nat} {ls ms : List Literal}
    (positive : ∀ l ∈ ls ++ ms, 0 < l.var) (declared : ∀ l ∈ ls ++ ms, l.var ≤ n)
    (distinct_ls : (ls.map Literal.var).Nodup) (distinct_ms : (ms.map Literal.var).Nodup)
    (same : signs n ls = signs n ms) : ls.Perm ms := by
  have nodup_ls : ls.Nodup := List.Nodup.of_map _ distinct_ls
  have nodup_ms : ms.Nodup := List.Nodup.of_map _ distinct_ms
  have mem_iff : ∀ l ∈ ls ++ ms, l ∈ ls ↔ l ∈ ms := by
    intro l member
    have l_positive := positive l member
    have inside : l.var - 1 < n :=
      Nat.lt_of_lt_of_le (Nat.sub_lt l_positive Nat.one_pos) (declared l member)
    -- The signs of a list say of each literal over the variables whether it is a member.
    have back : l = ⟨(⟨l.var - 1, inside⟩ : Fin n) + 1, l.polarity⟩ := by
      rw [Nat.sub_add_cancel l_positive]
    rw [back, ← signs_eq_some distinct_ls, ← signs_eq_some distinct_ms, same]
  refine (List.perm_ext_iff_of_nodup nodup_ls nodup_ms).2 fun l =>
    ⟨fun member => ?_, fun member => ?_⟩
  · exact (mem_iff l (List.mem_append_left _ member)).1 member
  · exact (mem_iff l (List.mem_append_right _ member)).2 member

namespace Formula

theorem LearntOnce.count_le {f : Formula} (once : f.LearntOnce) (wellFormed : f.WellFormed) :
    f.size - f.inputCount ≤ 3 ^ f.numVars := by
  let occurrences : Nat → Fin f.numVars → Option Bool :=
    fun place => signs f.numVars ((f.literalsAt place).getD [])
  -- Learnt clauses at different places differ in how some variable occurs.
  have injective : Set.InjOn occurrences (Finset.Ico f.inputCount f.size) := by
    intro p p_mem q q_mem same
    rw [Finset.coe_Ico, Set.mem_Ico] at p_mem q_mem
    obtain ⟨ls, at_p⟩ := exists_literalsAt p_mem.2
    obtain ⟨ms, at_q⟩ := exists_literalsAt q_mem.2
    have same_signs : signs f.numVars ls = signs f.numVars ms := by
      simpa [occurrences, at_p, at_q] using same
    refine once p_mem.1 q_mem.1 at_p at_q (perm_of_signs_eq ?_ ?_ (wellFormed.distinct at_p)
      (wellFormed.distinct at_q) same_signs)
    · intro l member
      rcases List.mem_append.1 member with first | second
      · exact wellFormed.positive at_p l first
      · exact wellFormed.positive at_q l second
    · intro l member
      rcases List.mem_append.1 member with first | second
      · exact wellFormed.declared at_p l first
      · exact wellFormed.declared at_q l second
  calc f.size - f.inputCount
    _ = (Finset.Ico f.inputCount f.size).card := (Nat.card_Ico _ _).symm
    _ ≤ (Finset.univ : Finset (Fin f.numVars → Option Bool)).card :=
      Finset.card_le_card_of_injOn occurrences (fun _ _ => Finset.mem_univ _) injective
    _ = 3 ^ f.numVars := by
      rw [Finset.card_univ, Fintype.card_fun, Fintype.card_option, Fintype.card_bool,
        Fintype.card_fin]

end Formula

end ClauseLearning
