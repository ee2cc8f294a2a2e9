import Mathlib.Data.List.Nodup
import Mathlib.Order.Bounds.Basic
import ClauseLearning.Clause

/-!
# Variables with both signs

A list of literals is a tautology if it has both literals of some variable. `Clause.clash?` looks
for them among the neighbours in the sorted list, where the codes bring them together.

Main statements: in a list that has no literal twice, the first neighbours with one variable are
those of the least variable with both signs, so the search finds what picking the least of all such
variables would; it finds nothing exactly if no variable occurs twice.
-/

namespace ClauseLearning

namespace Literal

/-- Two different literals of one variable are complements. -/
theorem eq_neg_of_var_eq {l q : Literal} (same : l.var = q.var) (different : l ≠ q) : q = -l := by
  rcases l with ⟨v, a⟩
  rcases q with ⟨w, b⟩
  simp only at same
  subst same
  cases a <;> cases b <;> simp_all [Neg.neg, Literal.neg]

theorem var_le_of_index_le {a b : Literal} (le : a.index ≤ b.index) : a.var ≤ b.var := by
  rw [← index_div_two a, ← index_div_two b]
  exact Nat.div_le_div_right le

/-- Of two literals of one variable the positive one comes first. -/
theorem polarity_of_index_lt {a b : Literal} (same : a.var = b.var) (lt : a.index < b.index) :
    a.polarity = true ∧ b.polarity = false := by
  rcases a with ⟨v, p⟩
  rcases b with ⟨w, q⟩
  obtain rfl : v = w := same
  cases p with
  | true =>
    cases q with
    | true => exact absurd lt (Nat.lt_irrefl _)
    | false => exact ⟨rfl, rfl⟩
  | false =>
    cases q with
    | true => exact absurd lt (Nat.not_lt.2 (Nat.le_succ _))
    | false => exact absurd lt (Nat.lt_irrefl _)

/-- Where no literal occurs twice, codes increase from one to the next in the sorted list. -/
theorem increasing_sort {ls : List Literal} (nodup : ls.Nodup) :
    (sort ls).Pairwise fun a b => a.index < b.index := by
  have distinct := (sort_perm ls).nodup_iff.2 nodup
  refine ((pairwise_sort ls).and distinct).imp fun {a b} both => ?_
  exact Nat.lt_of_le_of_ne both.1 fun same => both.2 (index_injective same)

end Literal

namespace Clause

/-- The variables of which a list has both literals. -/
def clashes (ls : List Literal) : Set Variable :=
  {v | ⟨v, true⟩ ∈ ls ∧ ⟨v, false⟩ ∈ ls}

/-- The least of them, picked from all. -/
def leastClash? (ls : List Literal) : Option Variable :=
  ((ls.filter fun l => l.polarity && ls.contains (-l)).map Literal.var).min?

theorem leastClash?_eq_some_iff {ls : List Literal} {v : Variable} :
    leastClash? ls = some v ↔ IsLeast (clashes ls) v := by
  have clashing : ∀ w, w ∈ (ls.filter fun l => l.polarity && ls.contains (-l)).map Literal.var ↔
      w ∈ clashes ls := by
    intro w
    simp only [List.mem_map, List.mem_filter, Bool.and_eq_true, List.contains_iff_mem]
    constructor
    · rintro ⟨⟨w, polarity⟩, ⟨member, positive, complement⟩, rfl⟩
      cases positive
      exact ⟨member, complement⟩
    · rintro ⟨member, complement⟩
      exact ⟨⟨w, true⟩, ⟨member, rfl, complement⟩, rfl⟩
  rw [leastClash?, List.min?_eq_some_iff, clashing]
  simp only [clashing]
  rfl

/-- Neighbours with one variable are its two literals, and no smaller variable has both. -/
theorem isLeast_of_neighbours {a b : Literal} {rest : List Literal}
    (increasing : (a :: b :: rest).Pairwise fun p q => p.index < q.index)
    (same : a.var = b.var) : IsLeast (clashes (a :: b :: rest)) a.var := by
  obtain ⟨first, _⟩ := List.pairwise_cons.1 increasing
  obtain ⟨positive, negative⟩ :=
    Literal.polarity_of_index_lt same (first b (List.mem_cons_self ..))
  constructor
  · have a_eq : (⟨a.var, true⟩ : Literal) = a := by rw [← positive]
    have b_eq : (⟨a.var, false⟩ : Literal) = b := by rw [same, ← negative]
    simp [clashes, a_eq, b_eq]
  · rintro w ⟨member, _⟩
    -- The first code is the smallest.
    rcases List.mem_cons.1 member with here | later
    · rw [← here]
    · exact Literal.var_le_of_index_le (Nat.le_of_lt (first _ later))

/-- A literal whose complement is not next to it has no complement behind it either. -/
theorem clashes_cons {a b : Literal} {rest : List Literal}
    (increasing : (a :: b :: rest).Pairwise fun p q => p.index < q.index)
    (different : a.var ≠ b.var) : clashes (a :: b :: rest) = clashes (b :: rest) := by
  obtain ⟨first, others⟩ := List.pairwise_cons.1 increasing
  obtain ⟨second, _⟩ := List.pairwise_cons.1 others
  have apart : ∀ l ∈ b :: rest, l.var ≠ a.var := by
    intro l member same
    have b_le : b.index ≤ l.index := by
      rcases List.mem_cons.1 member with rfl | later
      · exact Nat.le_refl _
      · exact Nat.le_of_lt (second l later)
    have lower := Literal.var_le_of_index_le (Nat.le_of_lt (first b (List.mem_cons_self ..)))
    have upper := Literal.var_le_of_index_le b_le
    exact different (Nat.le_antisymm lower (same ▸ upper))
  -- If the first literal belonged to such a variable, its complement would be among the others.
  have behind : ∀ v s, ⟨v, s⟩ ∈ a :: b :: rest → ⟨v, !s⟩ ∈ a :: b :: rest → ⟨v, s⟩ ∈ b :: rest := by
    intro v s member complement
    refine (List.mem_cons.1 member).resolve_left fun here => ?_
    rcases List.mem_cons.1 complement with also | later
    · have polarity := congrArg Literal.polarity (here.trans also.symm)
      simp at polarity
    · exact apart _ later (congrArg Literal.var here : v = a.var)
  refine Set.Subset.antisymm (fun v both => ?_) fun v both => ?_
  · exact ⟨behind v true both.1 both.2, behind v false both.2 both.1⟩
  · exact ⟨List.mem_cons_of_mem _ both.1, List.mem_cons_of_mem _ both.2⟩

/-- Among literals with increasing codes the first neighbours with one variable are found, and it is
the least variable with both signs. -/
theorem neighbours?_eq_some_iff {ls : List Literal} {v : Variable}
    (increasing : ls.Pairwise fun a b => a.index < b.index) :
    (neighbours? ls).map (fun pair => pair.1.var) = some v ↔ IsLeast (clashes ls) v := by
  induction ls using neighbours?.induct with
  | case1 => simp [neighbours?, clashes, IsLeast]
  | case2 a =>
    have none_both : clashes [a] = ∅ := by
      refine Set.eq_empty_of_forall_notMem fun v both => ?_
      have same := (List.mem_singleton.1 both.1).trans (List.mem_singleton.1 both.2).symm
      simp at same
    simp [neighbours?, none_both, IsLeast]
  | case3 a b rest same =>
    have least := isLeast_of_neighbours increasing same
    rw [neighbours?, if_pos same, Option.map_some, Option.some.injEq]
    exact ⟨fun here => here ▸ least, fun also => least.unique also⟩
  | case4 a b rest different ih =>
    rw [neighbours?, if_neg different, clashes_cons increasing different]
    exact ih (List.pairwise_cons.1 increasing).2

/-- Sorting changes the places of literals only. -/
theorem clashes_sort (ls : List Literal) : clashes (Literal.sort ls) = clashes ls := by
  ext v
  exact and_congr (Literal.sort_perm ls).mem_iff (Literal.sort_perm ls).mem_iff

/-- The clash of a list of different literals is the least variable that they have with both
signs. -/
theorem clash?_eq_some_iff {ls : List Literal} (nodup : ls.Nodup) {v : Variable} :
    clash? ls = some v ↔ IsLeast (clashes ls) v := by
  rw [clash?, neighbours?_eq_some_iff (Literal.increasing_sort nodup), clashes_sort]

/-- Looking at neighbours finds what picking the least of all variables with both signs does. -/
theorem clash?_eq_leastClash? {ls : List Literal} (nodup : ls.Nodup) :
    clash? ls = leastClash? ls := by
  ext v
  rw [clash?_eq_some_iff nodup, leastClash?_eq_some_iff]

/-- Different literals have no clash exactly if no variable occurs twice. -/
theorem clash?_eq_none_iff {ls : List Literal} (nodup : ls.Nodup) :
    clash? ls = none ↔ (ls.map Literal.var).Nodup := by
  rw [clash?_eq_leastClash? nodup, leastClash?, List.min?_eq_none_iff, List.map_eq_nil_iff,
    List.filter_eq_nil_iff]
  constructor
  · intro no_clash
    refine nodup.map_on fun l l_mem q q_mem same => ?_
    by_contra different
    have complement : q = -l := Literal.eq_neg_of_var_eq same different
    -- One of the two is positive, and its complement is there too.
    cases polarity : l.polarity with
    | true => exact no_clash l l_mem (by simp [polarity, ← complement, q_mem])
    | false =>
      have positive : q.polarity = true := by
        rw [complement, Literal.neg_polarity, polarity]
        rfl
      have back : -q = l := by rw [complement, Literal.neg_neg]
      exact no_clash q q_mem (by simp [positive, back, l_mem])
  · intro distinct l member both
    rw [Bool.and_eq_true, List.contains_iff_mem] at both
    exact Literal.neg_ne_self l
      (List.inj_on_of_nodup_map distinct both.2 member (Literal.neg_var l))

end Clause

end ClauseLearning
