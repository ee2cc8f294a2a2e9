import ClauseLearning.Proofs.Search.Moments

/-!
# Every learnt clause is new

The levels below the current one are closed under all stored clauses, learnt ones included, so a
clause with the same literals as a learnt one would have forced its first literal before the current
level was opened.

Main statement: at every conflict of a run, no stored clause has the same set of literals as the
clause that is learnt, neither when the conflict is analysed nor when the clause is stored. The
database does not find it in its index, and the books of stored, learnt and removed clauses agree.
-/

namespace ClauseLearning

/-- No clause of the formula has the same set of literals as `c`. -/
def Formula.Lacks (f : Formula) (c : Clause) : Prop :=
  ∀ d ∈ f.clauses, {l | l ∈ d.literals} ≠ {l | l ∈ c.literals}

theorem Formula.lacks_of_novel {f : Formula} {c : Clause}
    (novel : ∀ {place ls}, f.literalsAt place = some ls → ¬∀ l, l ∈ ls ↔ l ∈ c.literals) :
    f.Lacks c := by
  intro d member same
  obtain ⟨place, found⟩ := Array.mem_iff_getElem?.1 member
  exact novel (literalsAt_of_clause found) (Set.ext_iff.1 same)

namespace Search

variable {G : Type} {f : Formula} {o : Options} {s : Search G}

/-- Where the learnt clause is about to be stored, the index does not have it. -/
theorem Poised.lacks {c : Clause} {a : Literal} {others : List Literal}
    (poised : Poised f o a others s) (shape : c.literals = a :: others) :
    s.formula.Lacks c ∧ s.database.index[c.key]? = none := by
  have novel : ∀ {place ls}, s.formula.literalsAt place = some ls →
      ¬∀ l, l ∈ ls ↔ l ∈ c.literals := shape ▸ poised.novel
  exact ⟨Formula.lacks_of_novel novel,
    poised.steady.indexes.getElem?_eq_none fun _ found perm => novel found fun _ => perm.mem_iff⟩

/-- The formula has no deleted clauses, and the books are in order. -/
structure Accounted (s : Search G) : Prop where
  wellFormed : s.formula.WellFormed
  tallied : s.Tallied

theorem Accounted.count_eq (accounted : s.Accounted) :
    s.formula.numLearnt + s.database.removed = s.counters.learntClauses := by
  have input_le := accounted.wellFormed.input_le
  have tallied := accounted.tallied
  unfold Tallied at tallied
  rw [Formula.numLearnt_eq accounted.wellFormed]
  omega

variable [RandomSource G]

/-- Nothing has been learnt or removed at the start. -/
theorem Assembled.accounted (assembled : s.Assembled f o) (constructed : f.Constructed) :
    s.start.1.Accounted := by
  obtain ⟨trail, started⟩ := s.start_fst
  obtain ⟨wellFormed, all_input⟩ := constructed.wellFormed
  rw [started]
  cases assembled with
  | @ofParts kinds =>
    refine ⟨wellFormed, ?_⟩
    have nothing : ∀ given, (Database.make kinds.database f given).removed = 0 := by
      intro given
      cases kinds.database <;> rfl
    simp only [Tallied, Search.ofParts, nothing, Statistics.zero, all_input]

/-- In every run, each clause that is learnt is new as a set of literals, when the conflict is
analysed and when the clause is stored. Between the steps and at the end there are as many learnt
clauses as have been counted, less those that have been removed. -/
theorem learns_novel_clauses (clock : Nat → Bool) (assembled : s.Assembled f o)
    (constructed : f.Constructed) (represented : f.numVars < literalBound) :
    (∀ {place level : Nat} {mid : Search G} {analyser : Analyser} {conflict : Conflict}
        {c : Clause},
      Reachable clock s (.conflict place) mid →
      mid.analyser.analyse mid.formula mid.trail place = .ok (analyser, .ok conflict) →
      lesson? conflict = some (c, level) →
      mid.formula.Lacks c ∧
        ∀ {next : Search G}, Concluding (mid.analysed analyser) c level .jumped next →
          next.formula.Lacks c ∧ next.database.index[c.key]? = none) ∧
    (∀ {control : Control} {next : Search G}, Reachable clock s control next →
      next.formula.numLearnt + next.database.removed = next.counters.learntClauses) ∧
    (s.solveAgainst clock).1.formula.numLearnt + (s.solveAgainst clock).1.database.removed =
      (s.solveAgainst clock).1.counters.learntClauses := by
  have begins := assembled.accounted constructed
  have steps : ∀ {control : Control} {mid : Search G}, mid.Invariant f o control →
      mid.Accounted → (mid.step clock control).1.Accounted := by
    intro control mid invariant accounted
    have moves := step_moves constructed.wellFormed.1 represented clock invariant
    exact ⟨(moves.steady invariant.steady).coherent.wellFormed, moves.tallied accounted.tallied⟩
  refine ⟨?_, fun reachable => ?_, ?_⟩
  · intro place level mid analyser conflict c reachable ran drawn
    obtain ⟨a, others, taught⟩ := reachable.taught assembled constructed represented ran drawn
    refine ⟨Formula.lacks_of_novel fun found => ?_, fun concluding => ?_⟩
    · rw [taught.shape]
      exact taught.lesson.novel taught.steady.coherent found
    · have poised : Poised f o a others _ := concluding.known taught
      exact poised.lacks taught.shape
  · exact (reachable.holds assembled constructed represented begins steps).count_eq
  · exact (assembled.holds_at_end constructed represented begins steps
      fun accounted => ⟨accounted.wellFormed, accounted.tallied⟩).count_eq

/-- The second decision leads to a conflict. The clause learnt from it is new and is stored. -/
theorem learns_novel_clauses_conflict :
    ∃ f, Formula.ofClauses [[-1, 4], [-2, 3], [-1, -2, -3]] = .ok f ∧
      ∃ s : Search, build f Options.standard Strategies.plain = .ok s ∧
        (∃ mid analyser conflict c level, Reachable (fun _ => false) s (.conflict 2) mid ∧
          mid.analyser.analyse mid.formula mid.trail 2 = .ok (analyser, .ok conflict) ∧
          lesson? conflict = some (c, level) ∧ mid.formula.Lacks c) ∧
        ∃ next, Reachable (fun _ => false) s .propagate next ∧ next.formula.numLearnt = 1 ∧
          next.formula.numLearnt + next.database.removed = next.counters.learntClauses := by
  have run : ∃ f, Formula.ofClauses [[-1, 4], [-2, 3], [-1, -2, -3]] = .ok f ∧
      f.numVars < literalBound ∧ ∃ s : Search, build f Options.standard Strategies.plain = .ok s ∧
        ∃ mid, Reachable (fun _ => false) s (.conflict 2) mid ∧ 0 < mid.trail.level ∧
          mid.formula.size = 3 ∧ mid.formula.inputCount = 3 ∧ mid.database.limit? = none :=
    ⟨_, rfl, by decide, _, rfl, _,
      @reachable_of_progress _ _ _ _ 5 .propagate _ (by decide +kernel) (by decide +kernel),
      by decide +kernel, by decide +kernel, by decide +kernel, by decide +kernel⟩
  obtain ⟨f, made, represented, s, built, mid, reachable, above, size_eq, input_eq, unlimited⟩ :=
    run
  have assembled := assembled_of_build built
  have constructed := Formula.Constructed.ofClauses made
  have invariant := reachable.invariant assembled constructed represented
  have novel := learns_novel_clauses (fun _ => false) assembled constructed represented
  obtain ⟨analyser, conflict, c, level, _, _, analysed, drawn, _⟩ :=
    taught_of_invariant invariant above
  obtain ⟨next, ran, resolved⟩ := resolveConflict_ok invariant above
  have stepped : Reachable (fun _ => false) s .propagate next := .step reachable ran
  refine ⟨f, made, s, built, ⟨mid, analyser, conflict, c, level, reachable, analysed, drawn,
    (novel.1 reachable analysed drawn).1⟩, next, stepped, ?_, novel.2.1 stepped⟩
  rw [Formula.numLearnt_eq resolved.steady.coherent.wellFormed, resolved.inputCount_eq, input_eq]
  -- Nothing is removed without a limit.
  rcases resolved.outcome with ⟨grown, _⟩ | ⟨_, k, _, limited, _⟩
  · rw [grown, size_eq]
  · rw [unlimited] at limited
    cases limited

end Search

end ClauseLearning
