import ClauseLearning.Proofs.Search.Moments

/-!
# What holds in every state of a run

Three readings of the invariant of a search, in terms of the tables that the search looks at. The
formula is one that can be constructed, over variables that literals can represent; the search is
assembled from any strategies and options, and the clock may say anything.

Main statements: whenever no conflict stands, a watched literal that has been propagated as false
has a true partner of no higher level; steps, values, tables, levels and reasons of the trail agree
whenever a step is due; and at every moment, as at the end, the stored clauses mean the formula that
was given.
-/

namespace ClauseLearning

namespace Trail

/-- The steps of a trail agree with the values and tables kept beside them, with the starts of the
levels, and with the clauses that are given as reasons. -/
structure Orderly (t : Trail) (f : Formula) : Prop where
  nodup : (t.steps.toList.map fun s => s.literal.var).Nodup
  true_iff : ∀ l, t.values.literalValue? l = some true ↔ ∃ s ∈ t.steps, s.literal = l
  count_eq : t.values.numAssigned = t.size
  allAssigned_iff : t.values.allAssigned = true ↔
    ∀ v, 0 < v → v ≤ f.numVars → t.values.value? v ≠ none
  recorded : ∀ {v : Variable} {b : Bool}, t.values.value? v = some b →
    ∃ i s, t.steps[i]? = some s ∧ s.literal = ⟨v, b⟩ ∧ t.varPosition v = .ok i ∧
      t.varLevel v = .ok s.level
  level_mono : ∀ {i j : Nat} {s r : Step}, t.steps[i]? = some s → t.steps[j]? = some r → i ≤ j →
    s.level ≤ r.level
  levelStarts_iff : ∀ {k i : Nat}, t.levelStarts[k]? = some i ↔
    ∃ s, t.steps[i]? = some s ∧ s.reason = .decision ∧ s.level = k + 1
  isConsistent : t.isConsistent = true
  reason : ∀ {i place : Nat} {s : Step}, t.steps[i]? = some s → s.reason = .clause place →
    ∃ c, f.clauses[place]? = some c ∧ c.deleted = false ∧ s.literal ∈ c.literals ∧
      ∀ q ∈ c.literals, q ≠ s.literal →
        t.values.literalValue? q = some false ∧ ∃ j < i, t.varPosition q.var = .ok j

theorem Recorded.varPosition_eq {t : Trail} {n i : Nat} {s : Step} (recorded : t.Recorded n)
    (at_i : t.steps[i]? = some s) : t.varPosition s.literal.var = .ok i :=
  lookup_eq_ok_iff.2 (recorded.positionOf at_i)

theorem Recorded.varLevel_eq {t : Trail} {n i : Nat} {s : Step} (recorded : t.Recorded n)
    (at_i : t.steps[i]? = some s) : t.varLevel s.literal.var = .ok s.level :=
  lookup_eq_ok_iff.2 (recorded.levelOf at_i)

theorem holds_iff_mem {t : Trail} {l : Literal} : t.Holds l ↔ ∃ s ∈ t.steps, s.literal = l := by
  simp only [Holds, Array.mem_iff_getElem?]
  constructor
  · rintro ⟨i, s, at_i, same⟩
    exact ⟨s, ⟨i, at_i⟩, same⟩
  · rintro ⟨s, ⟨i, at_i⟩, same⟩
    exact ⟨i, s, at_i, same⟩

/-- A trail has as many steps as there are variables exactly if each of them has a value. -/
theorem Recorded.allAssigned_iff_forall {t : Trail} {n : Nat} (recorded : t.Recorded n) :
    t.values.allAssigned = true ↔ ∀ v, 0 < v → v ≤ n → t.values.value? v ≠ none := by
  rw [recorded.allAssigned_iff]
  constructor
  · intro full v positive declared unassigned
    have assigned := recorded.value?_isSome_of_full full positive declared
    rw [unassigned] at assigned
    cases assigned
  · intro all
    by_contra different
    have short : t.size < n := Nat.lt_of_le_of_ne recorded.size_le different
    obtain ⟨v, positive, declared, free⟩ := recorded.exists_free short
    exact all v positive declared free

theorem Coherent.orderly {t : Trail} {f : Formula} (coherent : t.Coherent f) : t.Orderly f := by
  have valid := coherent.valid
  refine
    { nodup := valid.nodup_vars, true_iff := ?_, count_eq := valid.count_eq,
      allAssigned_iff := valid.allAssigned_iff_forall, recorded := ?_,
      level_mono := valid.level_mono, levelStarts_iff := valid.levelStarts_iff,
      isConsistent := valid.isConsistent, reason := ?_ }
  · intro l
    rw [valid.literalValue?_eq_true, holds_iff_mem]
  · intro v b value
    obtain ⟨i, s, at_i, same⟩ := valid.value?_eq_some.1 value
    have position := valid.varPosition_eq at_i
    have level := valid.varLevel_eq at_i
    rw [same] at position level
    exact ⟨i, s, at_i, same, position, level⟩
  · intro i place s at_i reason
    obtain ⟨ls, found, member, others⟩ := coherent.justified at_i reason
    obtain ⟨c, at_place, rfl⟩ := Formula.literalsAt_eq_some.1 found
    refine ⟨c, at_place, coherent.wellFormed.present at_place, member, fun q q_mem different => ?_⟩
    obtain ⟨j, r, before, at_j, refuted⟩ := others q q_mem different
    have position := valid.varPosition_eq at_j
    rw [refuted, Literal.neg_var] at position
    exact ⟨valid.literalValue?_eq_false.2 ⟨j, r, at_j, refuted⟩, j, before, position⟩

/-- What a guard means for a stored clause and the tables of the trail. -/
theorem Guards.partner {t : Trail} {f : Formula} {n place k p : Nat} {c : Clause} {x y : Literal}
    (guards : t.Guards f (t.level + 1)) (valid : t.Valid n) (at_place : f.clauses[place]? = some c)
    (watched : k < 2) (own : c.literals[k]? = some x) (partner : c.literals[1 - k]? = some y)
    (refuted : t.values.literalValue? x = some false) (position : t.varPosition x.var = .ok p)
    (propagated : p < t.head) :
    t.values.literalValue? y = some true ∧
      ∃ m l, t.varLevel y.var = .ok m ∧ t.varLevel x.var = .ok l ∧ m ≤ l := by
  obtain ⟨i, s, at_i, s_eq⟩ := valid.literalValue?_eq_false.1 refuted
  have var_eq : s.literal.var = x.var := by rw [s_eq, Literal.neg_var]
  -- The table of positions leads to the step that has made the literal false.
  have at_p := valid.varPosition_eq at_i
  rw [var_eq, position] at at_p
  cases at_p
  have pair : f.WatchesPair place x y := by
    unfold Formula.WatchesPair
    rw [Formula.watchedAt_of_literalsAt (Formula.literalsAt_of_clause at_place)]
    match literals : c.literals with
    | [] => simp [literals] at own
    | [_] =>
      match k, watched with
      | 0, _ => simp [literals] at partner
      | 1, _ => simp [literals] at own
    | a :: b :: rest =>
      match k, watched with
      | 0, _ =>
        simp only [literals, List.getElem?_cons_zero, List.getElem?_cons_succ, Nat.sub_zero,
          Option.some.injEq] at own partner
        rw [own, partner]
        rfl
      | 1, _ =>
        simp only [literals, List.getElem?_cons_zero, List.getElem?_cons_succ, Nat.sub_self,
          Option.some.injEq] at own partner
        rw [own, partner]
        exact .swap ..
  obtain ⟨j, r, at_j, r_eq, low⟩ :=
    guards pair at_i propagated (Nat.lt_succ_of_le (valid.level_le at_i)) s_eq
  have level_y := valid.varLevel_eq at_j
  have level_x := valid.varLevel_eq at_i
  rw [r_eq] at level_y
  rw [var_eq] at level_x
  exact ⟨valid.literalValue?_eq_true.2 ⟨j, r, at_j, r_eq⟩, r.level, s.level, level_y, level_x, low⟩

end Trail

namespace Formula

/-- The stored clauses mean what the base means: its clauses are kept up to the order of their
literals, and the others follow from them. -/
structure Restates (base f : Formula) : Prop where
  numVars_eq : f.numVars = base.numVars
  inputCount_eq : f.inputCount = base.inputCount
  input : ∀ place < base.inputCount, ∃ c d, base.clauses[place]? = some c ∧
    f.clauses[place]? = some d ∧ d.literals.Perm c.literals ∧ d.deleted = false
  learnt : ∀ {place : Nat} {d : Clause}, base.inputCount ≤ place → f.clauses[place]? = some d →
    d.literals ≠ [] ∧ (d.literals.map Literal.var).Nodup ∧
      (∀ l ∈ d.literals, 0 < l.var ∧ l.var ≤ base.numVars) ∧
      ∀ σ, base.SatisfiedBy σ → SomeTrue σ d.literals
  models_iff : ∀ σ, f.Models σ ↔ base.SatisfiedBy σ

theorem Elaborates.restates {base f : Formula} (elaborates : base.Elaborates f)
    (wellFormed : f.WellFormed) (input_le : base.inputCount ≤ base.size)
    (nonempty : ∀ {place : Nat}, base.inputCount ≤ place → f.literalsAt place ≠ some []) :
    base.Restates f where
  numVars_eq := elaborates.numVars_eq
  inputCount_eq := elaborates.inputCount_eq
  input := by
    intro place inside
    obtain ⟨ls, found⟩ := exists_literalsAt (Nat.lt_of_lt_of_le inside input_le)
    obtain ⟨ms, at_f, perm⟩ := elaborates.input inside found
    obtain ⟨c, at_place, rfl⟩ := literalsAt_eq_some.1 found
    obtain ⟨d, stored, rfl⟩ := literalsAt_eq_some.1 at_f
    exact ⟨c, d, at_place, stored, perm.symm, wellFormed.present stored⟩
  learnt := by
    intro place d learnt stored
    have found := literalsAt_of_clause stored
    refine ⟨fun empty => nonempty learnt (found.trans (congrArg some empty)),
      wellFormed.distinct found, fun l member => ⟨?_, ?_⟩, fun σ satisfied => ?_⟩
    · exact wellFormed.positive found l member
    · rw [← elaborates.numVars_eq]
      exact wellFormed.declared found l member
    · exact elaborates.sound σ (elaborates.satisfiedBy_iff.2 satisfied) place _ found
  models_iff σ := by
    constructor
    · intro models
      rw [← elaborates.satisfiedBy_iff, Formula.satisfiedBy_iff]
      intro place ls _ found
      exact models place ls found
    · intro satisfied
      exact elaborates.sound σ (elaborates.satisfiedBy_iff.2 satisfied)

/-- A formula that has been constructed may have empty clauses, but none of them is learnt. -/
theorem Constructed.restates {f : Formula} (constructed : f.Constructed) : f.Restates f := by
  obtain ⟨wellFormed, all_input⟩ := constructed.wellFormed
  refine Elaborates.restates (.refl all_input) wellFormed wellFormed.input_le ?_
  intro place learnt found
  have inside := lt_size_of_literalsAt found
  omega

end Formula

namespace Search

variable {G : Type} {f : Formula} {o : Options} {s : Search G}

theorem Steady.restates (steady : s.Steady f o) (constructed : f.Constructed) :
    f.Restates s.formula :=
  steady.elaborates.restates steady.coherent.wellFormed constructed.wellFormed.1.input_le
    fun _ => steady.coherent.nonempty

variable [RandomSource G]

/-- What a search leaves behind when it has ended still means the formula that was given. -/
theorem Assembled.restates (assembled : s.Assembled f o) (constructed : f.Constructed)
    (represented : f.numVars < literalBound) (clock : Nat → Bool) :
    f.Restates (s.solveAgainst clock).1.formula := by
  have given : s.start.1.formula = f := by
    obtain ⟨trail, started⟩ := s.start_fst
    rw [started]
    cases assembled
    rfl
  refine @Assembled.holds_at_end G _ clock f o s assembled constructed represented
    (fun mid => f.Restates mid.formula) ?_ ?_ ?_
  · simp only [given]
    exact constructed.restates
  · intro control mid invariant _
    have moves := step_moves constructed.wellFormed.1 represented clock invariant
    exact (moves.steady invariant.steady).restates constructed
  · exact fun holds => holds

/-- When no conflict stands in a search with watched literals and one of the first two literals of a
stored clause has been refuted by a step that has been propagated, the other one is true, and became
so at no higher level. -/
theorem partner_of_propagated (clock : Nat → Bool) {moment : Moment} {next : Search G}
    (assembled : s.Assembled f o) (constructed : f.Constructed)
    (represented : f.numVars < literalBound) (watching : s.propagator.kind = .watched)
    (passes : Passes clock s moment next) (calm : moment.Calm) {place k p : Nat} {c : Clause}
    {x y : Literal} (stored : next.formula.clauses[place]? = some c)
    (watched : k < 2) (own : c.literals[k]? = some x) (partner : c.literals[1 - k]? = some y)
    (refuted : next.trail.values.literalValue? x = some false)
    (position : next.trail.varPosition x.var = .ok p) (propagated : p < next.trail.head) :
    next.trail.values.literalValue? y = some true ∧
      ∃ m l, next.trail.varLevel y.var = .ok m ∧ next.trail.varLevel x.var = .ok l ∧ m ≤ l := by
  obtain ⟨steady, settled⟩ := passes.known assembled constructed represented
  have ready := settled calm
  have kind_eq := passes.kind_eq.trans watching
  cases propagator : next.propagator with
  | scan n =>
    rw [propagator] at kind_eq
    cases kind_eq
  | watched w n =>
    rw [propagator] at ready
    exact ready.2.partner steady.coherent.valid stored watched own partner refuted position
      propagated

/-- The first decision refutes a watched literal of the second clause, which forces the other. -/
theorem partner_of_propagated_forced :
    ∃ f, Formula.withVars 3 [[1, 2], [-1, -2]] = .ok f ∧
      ∃ s : Search,
        build f Options.standard { Strategies.plain with propagator := .watched } = .ok s ∧
        ∃ next, Reachable (fun _ => false) s .decide next ∧
          next.formula.literalsAt 1 = some [⟨2, false⟩, ⟨1, false⟩] ∧
          next.trail.values.literalValue? ⟨1, false⟩ = some false ∧
          next.trail.varPosition 1 = .ok 0 ∧ 0 < next.trail.head ∧
          next.trail.values.literalValue? ⟨2, false⟩ = some true := by
  have run : ∃ f, Formula.withVars 3 [[1, 2], [-1, -2]] = .ok f ∧ f.numVars < literalBound ∧
      ∃ s : Search,
        build f Options.standard { Strategies.plain with propagator := .watched } = .ok s ∧
        s.propagator.kind = .watched ∧ ∃ next, Reachable (fun _ => false) s .decide next ∧
          next.formula.literalsAt 1 = some [⟨2, false⟩, ⟨1, false⟩] ∧
          next.trail.values.literalValue? ⟨1, false⟩ = some false ∧
          next.trail.varPosition 1 = .ok 0 ∧ 0 < next.trail.head :=
    ⟨_, rfl, by decide, _, rfl, rfl, _,
      @reachable_of_progress _ _ _ _ 3 .propagate _ (by decide +kernel) (by decide +kernel),
      by decide +kernel, by decide +kernel, by decide +kernel, by decide +kernel⟩
  obtain ⟨f, made, represented, s, built, watching, next, reachable, found, refuted, position,
    propagated⟩ := run
  obtain ⟨c, stored, shape⟩ := Formula.literalsAt_eq_some.1 found
  refine ⟨f, made, s, built, next, reachable, found, refuted, position, propagated, ?_⟩
  exact (partner_of_propagated (fun _ => false) (assembled_of_build built) (.withVars made)
    represented watching (.before reachable) (by simp [Moment.Calm]) stored (by decide : 1 < 2)
    (by rw [shape]; rfl) (by rw [shape]; rfl) refuted position propagated).1

/-- Whenever a step is due, the trail is in order. -/
theorem orderly_of_reachable (clock : Nat → Bool) {control : Control} {next : Search G}
    (assembled : s.Assembled f o) (constructed : f.Constructed)
    (represented : f.numVars < literalBound) (reachable : Reachable clock s control next) :
    next.trail.Orderly next.formula :=
  (reachable.invariant assembled constructed represented).steady.coherent.orderly

/-- The second decision has forced a literal and led to a conflict. -/
theorem orderly_of_reachable_conflict :
    ∃ f, Formula.ofClauses [[-1, 4], [-2, 3], [-1, -2, -3]] = .ok f ∧
      ∃ s : Search, build f Options.standard Strategies.plain = .ok s ∧
        ∃ next, Reachable (fun _ => false) s (.conflict 2) next ∧ next.trail.level = 2 ∧
          next.trail.Orderly next.formula := by
  have run : ∃ f, Formula.ofClauses [[-1, 4], [-2, 3], [-1, -2, -3]] = .ok f ∧
      f.numVars < literalBound ∧ ∃ s : Search, build f Options.standard Strategies.plain = .ok s ∧
        ∃ next, Reachable (fun _ => false) s (.conflict 2) next ∧ next.trail.level = 2 :=
    ⟨_, rfl, by decide, _, rfl, _,
      @reachable_of_progress _ _ _ _ 5 .propagate _ (by decide +kernel) (by decide +kernel),
      by decide +kernel⟩
  obtain ⟨f, made, represented, s, built, next, reachable, level⟩ := run
  exact ⟨f, made, s, built, next, reachable, level, orderly_of_reachable (fun _ => false)
    (assembled_of_build built) (.ofClauses made) represented reachable⟩

/-- At every moment of a run, and when it has ended, the stored clauses mean the formula that was
given. -/
theorem restates_throughout (clock : Nat → Bool) (assembled : s.Assembled f o)
    (constructed : f.Constructed) (represented : f.numVars < literalBound) :
    (∀ {moment : Moment} {next : Search G}, Passes clock s moment next →
        f.Restates next.formula) ∧
      f.Restates (s.solveAgainst clock).1.formula := by
  refine ⟨fun {moment next} passes => ?_, assembled.restates constructed represented clock⟩
  exact (passes.known assembled constructed represented).1.restates constructed

/-- A clause has been learnt from the conflict and stored behind the input. -/
theorem restates_throughout_learnt :
    ∃ f, Formula.ofClauses [[-1, 4], [-2, 3], [-1, -2, -3]] = .ok f ∧
      ∃ s : Search,
        build f Options.standard { Strategies.plain with propagator := .watched } = .ok s ∧
        ∃ next, Passes (fun _ => false) s (.before .propagate) next ∧ next.formula.size = 4 ∧
          f.Restates next.formula := by
  have run : ∃ f, Formula.ofClauses [[-1, 4], [-2, 3], [-1, -2, -3]] = .ok f ∧
      f.numVars < literalBound ∧
      ∃ s : Search,
        build f Options.standard { Strategies.plain with propagator := .watched } = .ok s ∧
        ∃ mid, Reachable (fun _ => false) s (.conflict 2) mid ∧ 0 < mid.trail.level ∧
          mid.formula.size = 3 ∧ mid.database.limit? = none :=
    ⟨_, rfl, by decide, _, rfl, _,
      @reachable_of_progress _ _ _ _ 5 .propagate _ (by decide +kernel) (by decide +kernel),
      by decide +kernel, by decide +kernel, by decide +kernel⟩
  obtain ⟨f, made, represented, s, built, mid, reachable, above, size_eq, unlimited⟩ := run
  have assembled := assembled_of_build built
  have constructed := Formula.Constructed.ofClauses made
  obtain ⟨next, ran, resolved⟩ :=
    resolveConflict_ok (reachable.invariant assembled constructed represented) above
  have passes : Passes (fun _ => false) s (.before .propagate) next := .before (.step reachable ran)
  refine ⟨f, made, s, built, next, passes, ?_,
    (restates_throughout (fun _ => false) assembled constructed represented).1 passes⟩
  -- Without a limit the database is never reduced.
  rcases resolved.outcome with ⟨grown, _⟩ | ⟨_, k, _, limit, _⟩
  · rw [grown, size_eq]
  · rw [unlimited] at limit
    cases limit

end Search

end ClauseLearning
