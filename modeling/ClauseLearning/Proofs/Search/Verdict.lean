import ClauseLearning.Proofs.Search.Run

/-!
# The verdicts of a search

What the answer of a search says about the formula that it was given. The formula is one that can be
constructed, over variables that literals can represent; the search is assembled from any strategies
and options, and the clock may say anything.

Main statements: a formula answered with `unsat` has no satisfying valuation; the model of an answer
`sat` solves the formula as it was given; and without limits one of these two answers is always
reached, after finitely many steps.
-/

namespace ClauseLearning.Search

variable {G : Type} [RandomSource G] {f : Formula} {o : Options} {s : Search G}

/-- An answer of a run is right. -/
theorem answers_of_solveAgainst {clock : Nat → Bool} {verdict : Verdict}
    (assembled : s.Assembled f o) (constructed : f.Constructed)
    (represented : f.numVars < literalBound)
    (answered : (s.solveAgainst clock).2 = .verdict verdict) : verdict.Answers f o := by
  obtain ⟨given, ran, answers⟩ := solveAgainst_answers clock assembled constructed represented
  rw [ran] at answered
  cases answered
  exact answers

/-- A formula that is answered with `unsat` cannot be satisfied. -/
theorem not_satisfiable_of_unsat (clock : Nat → Bool) (assembled : s.Assembled f o)
    (constructed : f.Constructed) (represented : f.numVars < literalBound)
    (answered : (s.solveAgainst clock).2 = .verdict .unsat) : ¬f.Satisfiable :=
  answers_of_solveAgainst assembled constructed represented answered

/-- Propagation refutes a clause at level 0. -/
theorem not_satisfiable_of_unsat_chain :
    ∃ f, Formula.ofClauses [[1], [-1, 2], [-1, -2]] = .ok f ∧
      ∃ s : Search, build f Options.standard Strategies.standard = .ok s ∧
        s.solve.2 = .verdict .unsat ∧ ¬f.Satisfiable := by
  refine ⟨_, rfl, _, rfl, ?_, ?_⟩
  · decide +kernel
  · exact not_satisfiable_of_unsat (fun _ => false)
      (@assembled_of_build Generator _ _ Options.standard Strategies.standard _ rfl)
      (@Formula.Constructed.ofClauses _ [[1], [-1, 2], [-1, -2]] rfl) (by decide)
      (by decide +kernel)

/-- The model of an answer has a signed number for each variable, in order, and makes the formula
true as it was given. -/
theorem solvedBy_of_sat (clock : Nat → Bool) {m : Model} (assembled : s.Assembled f o)
    (constructed : f.Constructed) (represented : f.numVars < literalBound)
    (answered : (s.solveAgainst clock).2 = .verdict (.sat m)) :
    m.literals.size = f.numVars ∧
      (∀ i < f.numVars, m.literals[i]? = some ((i + 1 : Nat) : Int) ∨
        m.literals[i]? = some (-((i + 1 : Nat) : Int))) ∧
      f.SatisfiedBy m.valuation ∧ f.verify m = true := by
  have solved : f.SolvedBy m :=
    answers_of_solveAgainst assembled constructed represented answered
  have wellFormed := constructed.wellFormed.1
  exact ⟨solved.size_eq, solved.entry,
    (Formula.verify_eq_true_iff wellFormed solved.size_eq).1 solved.verified, solved.verified⟩

/-- One variable is decided and the other one follows. -/
theorem solvedBy_of_sat_decided :
    ∃ f, Formula.ofClauses [[1, 2], [-1, -2]] = .ok f ∧
      ∃ s : Search, build f Options.standard Strategies.plain = .ok s ∧
        s.solve.2 = .verdict (.sat ⟨#[1, -2]⟩) ∧ f.verify ⟨#[1, -2]⟩ = true := by
  refine ⟨_, rfl, _, rfl, ?_, ?_⟩
  · decide +kernel
  · exact (solvedBy_of_sat (fun _ => false)
      (@assembled_of_build Generator _ _ Options.standard Strategies.plain _ rfl)
      (@Formula.Constructed.ofClauses _ [[1, 2], [-1, -2]] rfl) (by decide)
      (by decide +kernel)).2.2.2

/-- Without limits a search ends after finitely many steps with `sat` or `unsat`, and it is `sat`
exactly for satisfiable formulas. -/
theorem decides_satisfiability (clock : Nat → Bool) (assembled : s.Assembled f o)
    (constructed : f.Constructed) (represented : f.numVars < literalBound)
    (any_conflicts : o.maxConflicts = none) (any_decisions : o.maxDecisions = none)
    (any_time : o.timeLimit = none) :
    (∃ n, ∀ first control, s.start = (first, .next control) →
      ∃ last verdict, after clock n control first = (last, .done verdict)) ∧
    ((s.solveAgainst clock).2 = .verdict .unsat ∨
      ∃ m, (s.solveAgainst clock).2 = .verdict (.sat m)) ∧
    ((∃ m, (s.solveAgainst clock).2 = .verdict (.sat m)) ↔ f.Satisfiable) := by
  have wellFormed := constructed.wellFormed.1
  obtain ⟨verdict, ran, answers⟩ := solveAgainst_answers clock assembled constructed represented
  refine ⟨⟨2 ^ roundBound f.numVars - 1, fun first control started => ?_⟩, ?_⟩
  · have leads := start_leads assembled constructed represented
    rw [started] at leads
    obtain ⟨last, verdict, ended, _⟩ := @after_answers G _ clock f o wellFormed represented _
      control first leads.1 leads.2
    exact ⟨last, verdict, ended⟩
  · rw [ran]
    cases verdict with
    | sat m =>
      have satisfiable := Formula.SolvedBy.satisfiable answers wellFormed
      exact ⟨.inr ⟨m, rfl⟩, iff_of_true ⟨m, rfl⟩ satisfiable⟩
    | unsat =>
      refine ⟨.inl rfl, iff_of_false ?_ answers⟩
      rintro ⟨m, answered⟩
      cases answered
    -- This answer is only given at a limit, and there is none.
    | unknown =>
      rcases answers with limit | limit | limit
      · exact absurd any_conflicts limit
      · exact absurd any_decisions limit
      · exact absurd any_time limit

/-- Four pigeons do not fit into three holes. -/
def pigeons : List (List Int) :=
  [[1, 2, 3], [4, 5, 6], [7, 8, 9], [10, 11, 12],
    [-1, -4], [-1, -7], [-1, -10], [-4, -7], [-4, -10], [-7, -10],
    [-2, -5], [-2, -8], [-2, -11], [-5, -8], [-5, -11], [-8, -11],
    [-3, -6], [-3, -9], [-3, -12], [-6, -9], [-6, -12], [-9, -12]]

/-- No limits, a restart after every conflict and the smallest limit of the database. -/
def eager : Options :=
  { Options.standard with restartBase := 1, learntLimit := 1, maxConflicts := none, seed := 1 }

/-- The search decides variables at random. On the way to its answer there is a conflict at level 2:
the backjump closes one level, a clause is removed, and the restart closes the other level. -/
theorem decides_satisfiability_eager :
    ∃ f, Formula.ofClauses pigeons = .ok f ∧
      ∃ s : Search, build f eager
        { Strategies.standard with branching := .random, restarter := .fixed } = .ok s ∧
      (∃ place mid next, Reachable (fun _ => false) s (.conflict place) mid ∧
        mid.step (fun _ => false) (.conflict place) = (next, .next .propagate) ∧
        mid.trail.level = 2 ∧ next.trail.level = 0 ∧
        mid.statistics.totalBackjump = 3 ∧ next.statistics.totalBackjump = 4 ∧
        mid.database.removed = 0 ∧ next.database.removed = 1) ∧
      s.solve.2 = .verdict .unsat ∧ ¬f.Satisfiable := by
  -- The run is evaluated as a whole: 25 steps, the step from the conflict, and the answer.
  have seen : (do
      let f ← (Formula.ofClauses pigeons).toOption
      let s : Search ← (build f eager
        { Strategies.standard with branching := .random, restarter := .fixed }).toOption
      let mid := after (fun _ => false) 25 .propagate s.start.1
      let next := mid.1.step (fun _ => false) (.conflict 21)
      return (s.start.2, mid.2, next.2, s.solve.2,
        [f.numVars, mid.1.trail.level, next.1.trail.level, mid.1.statistics.totalBackjump,
          next.1.statistics.totalBackjump, mid.1.database.removed, next.1.database.removed])) =
      some (.next .propagate, .next (.conflict 21), .next .propagate, .verdict .unsat,
        [12, 2, 0, 3, 4, 0, 1]) := by
    decide +kernel
  obtain ⟨f, made, seen⟩ := Option.bind_eq_some_iff.1 seen
  obtain ⟨s, built, seen⟩ := Option.bind_eq_some_iff.1 seen
  rw [toOption_eq_some] at made built
  simp only [Option.pure_def, Option.some.injEq, Prod.mk.injEq, List.cons.injEq, and_true] at seen
  obtain ⟨started, arrived, stepped, answered, few, levels⟩ := seen
  have reachable := reachable_of_progress 25 started arrived
  have decides := decides_satisfiability (fun _ => false) (assembled_of_build built)
    (.ofClauses made) (by rw [few]; decide) rfl rfl rfl
  refine ⟨f, made, s, built, ⟨21, _, _, reachable, Prod.ext rfl stepped, levels⟩, answered,
    fun satisfiable => ?_⟩
  obtain ⟨m, model⟩ := decides.2.2.2 satisfiable
  cases answered.symm.trans model

end ClauseLearning.Search
