import ClauseLearning.Proofs.Propagation.Registration

/-!
# Guarded clauses

A trail guards the clauses: when a watched literal has been refuted by a step that has been
propagated, the other watched literal is true, and became so at no higher level.

Main statements: going back keeps the guard without looking at any clause, and when no step waits, a
guarded trail has closed its level. While the clauses listed under a literal are visited, those that
wait are not yet guarded against it; `GuardsBut` says how far a visit has come.
-/

namespace ClauseLearning

/-- The clause at a place watches two literals, in either order. -/
def Formula.WatchesPair (f : Formula) (place : Nat) (x y : Literal) : Prop :=
  (f.watchedAt place).Perm [x, y]

/-- Two watched literals are a pair in one of two ways. -/
theorem Formula.WatchesPair.cases {f : Formula} {place : Nat} {a b x y : Literal}
    (watched : f.WatchesPair place a b) (pair : f.WatchesPair place x y) :
    x = a ∧ y = b ∨ x = b ∧ y = a := by
  have perm : [a, b].Perm [x, y] := watched.symm.trans pair
  have member : x ∈ [a, b] := perm.mem_iff.2 (List.mem_cons_self ..)
  rcases List.mem_cons.1 member with rfl | second
  · have rest := List.singleton_perm_singleton.1 (perm.cons_inv)
    exact .inl ⟨rfl, rest.symm⟩
  · obtain rfl : x = b := by simpa using second
    have rest := List.singleton_perm_singleton.1 ((List.Perm.swap ..).trans perm).cons_inv
    exact .inr ⟨rfl, rest.symm⟩

namespace Trail

/-- When a propagated step of a level below `bound` has refuted a watched literal, the other watched
literal is true, and not of a higher level. -/
def Guards (t : Trail) (f : Formula) (bound : Nat) : Prop :=
  ∀ ⦃place : Nat⦄ ⦃x y : Literal⦄, f.WatchesPair place x y →
    ∀ ⦃i : Nat⦄ ⦃s : Step⦄, t.steps[i]? = some s → i < t.head → s.level < bound →
      s.literal = -x → t.HoldsBy s.level y

/-- The same on all levels, except that the places on a list may wait to be looked at because
`falseLit` has become false. -/
def GuardsBut (t : Trail) (f : Formula) (falseLit : Literal) (pending : List Nat) : Prop :=
  ∀ ⦃place : Nat⦄ ⦃x y : Literal⦄, f.WatchesPair place x y →
    ∀ ⦃i : Nat⦄ ⦃s : Step⦄, t.steps[i]? = some s → i < t.head →
      s.literal = -x → t.HoldsBy s.level y ∨ x = falseLit ∧ place ∈ pending

theorem Guards.mono {t : Trail} {f : Formula} {bound lower : Nat} (guards : t.Guards f bound)
    (le : lower ≤ bound) : t.Guards f lower :=
  fun _ _ _ pair _ _ at_i before level => guards pair at_i before (Nat.lt_of_lt_of_le level le)

/-- A guarded trail on which no step waits has closed its level. -/
theorem Guards.closedAt {t : Trail} {f : Formula} (coherent : t.Coherent f)
    (guards : t.Guards f (t.level + 1)) (done : t.head = t.size) : t.ClosedAt f t.level := by
  intro place ls found l member others
  match ls with
  | [] => exact absurd found coherent.nonempty
  | [a] =>
    obtain rfl : l = a := by simpa using member
    exact (coherent.units found).mono (Nat.zero_le _)
  | a :: b :: rest =>
    have watched : f.watchedAt place = [a, b] := Formula.watchedAt_of_literalsAt found
    have a_mem : a ∈ a :: b :: rest := List.mem_cons_self ..
    have b_mem : b ∈ a :: b :: rest := List.mem_cons_of_mem _ (List.mem_cons_self ..)
    -- A refuted watched literal makes the other one true.
    have holds_other : ∀ {x y : Literal}, f.WatchesPair place x y → x ∈ a :: b :: rest → x ≠ l →
        t.HoldsBy t.level y := by
      intro x y pair x_mem different
      obtain ⟨i, s, at_i, refuted, level⟩ := others x x_mem different
      have before : i < t.head := done ▸ lt_size at_i
      exact (guards pair at_i before (by omega) refuted).mono level
    by_cases first : a = l
    · subst first
      have different : b ≠ a := by
        intro same
        have nodup := List.Nodup.of_map _ (coherent.wellFormed.distinct found)
        simp [same] at nodup
      exact holds_other ((List.Perm.of_eq watched).trans (.swap ..)) b_mem different
    · have holds_b := holds_other (.of_eq watched) a_mem first
      by_cases second : b = l
      · exact second ▸ holds_b
      · exact absurd (others b b_mem second).holds (coherent.valid.not_holds_neg holds_b.holds)

/-- Going back keeps the guard, without looking at any clause. -/
theorem Guards.of_backtracks {t next : Trail} {f : Formula} {k bound : Nat}
    (guards : t.Guards f bound) (back : t.Backtracks k next) (lower : k < bound) :
    next.Guards f (k + 1) := by
  intro place x y pair i s at_i before level refuted
  obtain ⟨old, low⟩ := back.steps_iff.1 at_i
  have earlier : i < t.head := by
    rw [back.head_eq] at before
    exact Nat.lt_of_lt_of_le before (Nat.min_le_left _ _)
  have holds := guards pair old earlier (by omega) refuted
  exact (back.holdsBy_iff low).2 holds

/-- New steps wait, so they ask nothing of the guard. -/
theorem Guards.of_extends {t next : Trail} {f : Formula} {n bound : Nat} (guards : t.Guards f bound)
    (valid : t.Valid n) (grows : t.Extends next) (head_eq : next.head = t.head) :
    next.Guards f bound := by
  intro place x y pair i s at_i before level refuted
  rw [head_eq] at before
  rcases grows.adds at_i with old | ⟨late, _⟩
  · exact grows.holdsBy (guards pair old before level refuted)
  · have head_le := valid.head_le
    omega

/-! ### While clauses wait -/

theorem GuardsBut.of_extends {t next : Trail} {f : Formula} {n : Nat} {falseLit : Literal}
    {pending : List Nat} (guards : t.GuardsBut f falseLit pending) (valid : t.Valid n)
    (grows : t.Extends next) (head_eq : next.head = t.head) :
    next.GuardsBut f falseLit pending := by
  intro place x y pair i s at_i before refuted
  rw [head_eq] at before
  rcases grows.adds at_i with old | ⟨late, _⟩
  · exact (guards pair old before refuted).imp_left grows.holdsBy
  · have head_le := valid.head_le
    omega

theorem GuardsBut.of_same {t : Trail} {f g : Formula} {falseLit : Literal} {pending : List Nat}
    (guards : t.GuardsBut f falseLit pending)
    (same : ∀ p, (g.watchedAt p).Perm (f.watchedAt p)) : t.GuardsBut g falseLit pending :=
  fun place _ _ pair _ _ at_i before refuted =>
    guards ((same place).symm.trans pair) at_i before refuted

/-- A clause of which one watched literal is false need not wait if the other is true. -/
theorem GuardsBut.next {t : Trail} {f : Formula} {falseLit other : Literal} {place : Nat}
    {rest : List Nat} (guards : t.GuardsBut f falseLit (place :: rest))
    (valid : t.Valid f.numVars) (now : t.FalseNow falseLit)
    (watched : f.WatchesPair place falseLit other) (different : other ≠ falseLit)
    (holds : t.Holds other) : t.GuardsBut f falseLit rest := by
  intro p x y pair i s at_i before refuted
  rcases guards pair at_i before refuted with guarded | ⟨rfl, waits⟩
  · exact .inl guarded
  · rcases List.mem_cons.1 waits with rfl | later
    · rcases watched.cases pair with ⟨_, rfl⟩ | ⟨same, _⟩
      -- The other literal is true, and no step is of a higher level than the current one.
      · obtain ⟨j, r, at_j, true_y⟩ := holds
        have level := now.level_eq valid.toLocated at_i refuted
        exact .inl ⟨j, r, at_j, true_y, level ▸ valid.level_le at_j⟩
      · exact absurd same.symm different
    · exact .inr ⟨rfl, later⟩

/-- A clause need not wait once it watches a literal that is not false instead. -/
theorem GuardsBut.moved {t : Trail} {f g : Formula} {falseLit other found : Literal} {place : Nat}
    {rest : List Nat} (guards : t.GuardsBut f falseLit (place :: rest))
    (valid : t.Valid f.numVars) (now : t.FalseNow falseLit)
    (before : f.WatchesPair place falseLit other) (after : g.WatchesPair place other found)
    (elsewhere : ∀ p, p ≠ place → g.watchedAt p = f.watchedAt p) (different : other ≠ falseLit)
    (watchable : ¬t.Holds (-found)) : t.GuardsBut g falseLit rest := by
  intro p x y pair i s at_i propagated refuted
  by_cases here : p = place
  · subst here
    rcases after.cases pair with ⟨rfl, rfl⟩ | ⟨rfl, _⟩
    · -- Before, `falseLit` had to be true with `x` refuted, but it is false.
      rcases guards (before.trans (.swap ..)) at_i propagated refuted with guarded | ⟨same, _⟩
      · obtain ⟨j, r, at_j, false_now, _⟩ := now
        exact absurd ⟨j, r, at_j, false_now⟩ (valid.not_holds_neg guarded.holds)
      · exact absurd same different
    · exact absurd ⟨i, s, at_i, refuted⟩ watchable
  -- Other clauses watch what they did, and only those behind `place` may wait.
  · have old : f.WatchesPair p x y := by
      unfold Formula.WatchesPair
      rw [← elsewhere p here]
      exact pair
    rcases guards old at_i propagated refuted with guarded | ⟨same, waits⟩
    · exact .inl guarded
    · rcases List.mem_cons.1 waits with rfl | later
      · exact absurd rfl here
      · exact .inr ⟨same, later⟩

/-- When no clause waits any more, everything is guarded. -/
theorem GuardsBut.done {t : Trail} {f : Formula} {falseLit : Literal}
    (guards : t.GuardsBut f falseLit []) (bound : Nat) : t.Guards f bound := by
  intro place x y pair i s at_i before _ refuted
  rcases guards pair at_i before refuted with guarded | ⟨_, waits⟩
  · exact guarded
  · simp at waits

/-- While clauses wait, the levels below the current one are guarded. -/
theorem GuardsBut.below {t : Trail} {f : Formula} {falseLit : Literal} {pending : List Nat}
    (guards : t.GuardsBut f falseLit pending) (valid : t.Valid f.numVars)
    (now : t.FalseNow falseLit) : t.Guards f t.level := by
  intro place x y pair i s at_i before lower refuted
  rcases guards pair at_i before refuted with guarded | ⟨rfl, _⟩
  · exact guarded
  · have level := now.level_eq valid.toLocated at_i refuted
    omega

end Trail

end ClauseLearning
