import ClauseLearning.Proofs.Trail.Valid

/-!
# The check of the levels

The check follows the steps once from the first to the last and keeps the level reached. Main
statement: a trail passes it exactly when levels start where they are said to, each with a decision,
and there are no other decisions.
-/

namespace ClauseLearning.Trail

/-- The steps of `rest`, the first of them at position `i`, lead from level `current` to level
`last`, and each level that they enter starts where it is said to. -/
structure Ascends (starts : Array Nat) (i current last : Nat) (rest : List Step) : Prop where
  le : current ≤ last
  inside : ∀ {j : Nat} {s : Step}, rest[j]? = some s → current ≤ s.level ∧ s.level ≤ last
  decision : ∀ {j : Nat} {s : Step}, rest[j]? = some s → s.reason = .decision →
    ∃ k, s.level = k + 1 ∧ starts[k]? = some (i + j)
  start : ∀ {k : Nat}, current ≤ k → k < last → ∃ (j : Nat) (s : Step), rest[j]? = some s ∧
    s.reason = .decision ∧ s.level = k + 1 ∧ starts[k]? = some (i + j) ∧
    ∀ {m : Nat} {r : Step}, rest[m]? = some r → (j ≤ m ↔ k < r.level)

/-- A decision in front starts the next level. -/
theorem Ascends.decide {starts : Array Nat} {i current last : Nat} {s : Step} {rest : List Step}
    (ascends : Ascends starts (i + 1) (current + 1) last rest) (decided : s.reason = .decision)
    (started : starts[current]? = some i) (level : s.level = current + 1) :
    Ascends starts i current last (s :: rest) where
  le := Nat.le_of_succ_le ascends.le
  inside := by
    intro j r at_j
    cases j with
    | zero =>
      obtain rfl : s = r := by simpa using at_j
      have le := ascends.le
      omega
    | succ j =>
      obtain ⟨above, below⟩ := ascends.inside at_j
      omega
  decision := by
    intro j r at_j decided_r
    cases j with
    | zero =>
      obtain rfl : s = r := by simpa using at_j
      exact ⟨current, level, started⟩
    | succ j =>
      obtain ⟨k, level_k, start⟩ := ascends.decision at_j decided_r
      exact ⟨k, level_k, by rw [start, Nat.add_right_comm, Nat.add_assoc]⟩
  start := by
    intro k from_current below
    rcases Nat.eq_or_lt_of_le from_current with rfl | above
    · -- All steps from here on are above the level that was reached before.
      refine ⟨0, s, rfl, decided, level, started, ?_⟩
      intro m r at_m
      cases m with
      | zero =>
        obtain rfl : s = r := by simpa using at_m
        omega
      | succ m =>
        have higher := (ascends.inside at_m).1
        omega
    · obtain ⟨j, r, at_j, decided_r, level_r, start, covers⟩ := ascends.start above below
      refine ⟨j + 1, r, at_j, decided_r, level_r,
        by rw [start, Nat.add_right_comm, Nat.add_assoc], ?_⟩
      intro m u at_m
      cases m with
      | zero =>
        obtain rfl : s = u := by simpa using at_m
        omega
      | succ m =>
        rw [Nat.add_le_add_iff_right]
        exact covers at_m

/-- A forced step in front stays on the level. -/
theorem Ascends.force {starts : Array Nat} {i current last : Nat} {s : Step} {rest : List Step}
    (ascends : Ascends starts (i + 1) current last rest) (forced : s.reason ≠ .decision)
    (level : s.level = current) : Ascends starts i current last (s :: rest) where
  le := ascends.le
  inside := by
    intro j r at_j
    cases j with
    | zero =>
      obtain rfl : s = r := by simpa using at_j
      exact ⟨Nat.le_of_eq level.symm, level ▸ ascends.le⟩
    | succ j => exact ascends.inside at_j
  decision := by
    intro j r at_j decided
    cases j with
    | zero =>
      obtain rfl : s = r := by simpa using at_j
      exact absurd decided forced
    | succ j =>
      obtain ⟨k, level_k, start⟩ := ascends.decision at_j decided
      exact ⟨k, level_k, by rw [start, Nat.add_right_comm, Nat.add_assoc]⟩
  start := by
    intro k from_current below
    obtain ⟨j, r, at_j, decided, level_r, start, covers⟩ := ascends.start from_current below
    refine ⟨j + 1, r, at_j, decided, level_r,
      by rw [start, Nat.add_right_comm, Nat.add_assoc], ?_⟩
    intro m u at_m
    cases m with
    | zero =>
      obtain rfl : s = u := by simpa using at_m
      omega
    | succ m =>
      rw [Nat.add_le_add_iff_right]
      exact covers at_m

theorem ascends_of_lastLevelFrom {starts : Array Nat} (rest : List Step) :
    ∀ i current last, lastLevelFrom starts i current rest = some last →
      Ascends starts i current last rest := by
  induction rest with
  | nil =>
    intro i current last reached
    obtain rfl : current = last := by simpa [lastLevelFrom] using reached
    refine ⟨Nat.le_refl _, by simp, by simp, ?_⟩
    intro k from_current below
    omega
  | cons s rest ih =>
    intro i current last reached
    by_cases decided : s.reason = .decision
    · simp only [lastLevelFrom, decided, BEq.rfl, if_true, Bool.true_and] at reached
      split at reached
      next => simp at reached
      next started =>
        split at reached
        next => simp at reached
        next level =>
          exact (ih _ _ _ reached).decide decided (by simpa using started) (by simpa using level)
    · have not_decided : (s.reason == Reason.decision) = false := by simpa using decided
      simp only [lastLevelFrom, not_decided, Bool.false_and, Bool.false_eq_true, if_false]
        at reached
      split at reached
      next => simp at reached
      next level => exact (ih _ _ _ reached).force decided (by simpa using level)

/-- The check of the levels finds exactly the trails whose levels are in order. -/
theorem isConsistent_iff {t : Trail} : t.isConsistent = true ↔ t.Layered := by
  constructor
  · intro consistent
    have ascends := ascends_of_lastLevelFrom _ _ _ _ (beq_iff_eq.1 consistent)
    have at_list : ∀ {i : Nat} {s : Step}, t.steps[i]? = some s → t.steps.toList[i]? = some s :=
      fun at_i => by simpa using at_i
    -- The position said to be the start of a level is the one that was found.
    have started : ∀ {k p : Nat}, t.levelStarts[k]? = some p → ∃ s : Step, t.steps[p]? = some s ∧
        s.reason = .decision ∧ s.level = k + 1 ∧
        ∀ {m : Nat} {r : Step}, t.steps[m]? = some r → (p ≤ m ↔ k < r.level) := by
      intro k p found
      have below : k < t.level := (Array.getElem?_eq_some_iff.1 found).1
      obtain ⟨j, s, at_j, decided, level, start, covers⟩ := ascends.start (Nat.zero_le k) below
      rw [Nat.zero_add, found, Option.some.injEq] at start
      subst start
      exact ⟨s, by simpa using at_j, decided, level, fun at_m => covers (at_list at_m)⟩
    refine ⟨?_, ?_, ?_, ?_⟩
    · intro i s at_i
      exact (ascends.inside (at_list at_i)).2
    · intro k p i s found at_i
      obtain ⟨_, _, _, _, covers⟩ := started found
      exact covers at_i
    · intro k p found
      obtain ⟨s, at_p, decided, level, _⟩ := started found
      exact ⟨s, at_p, decided, level⟩
    · intro i s at_i decided
      simpa using ascends.decision (at_list at_i) decided
  · exact Layered.isConsistent

end ClauseLearning.Trail
