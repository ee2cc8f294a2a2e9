import ClauseLearning.Proofs.Search.Moments

/-!
# The books of a run

A level of the trail is opened by a decision, which is counted. It is closed by a backjump, which is
counted with its length, or by a restart, which is counted without. So the decisions pay for the
current level and for the lengths of all backjumps, and what is left over has been closed by
restarts. Each conflict above level 0 leads to one learnt clause, one backjump over at least one
level, and at most one restart.

Main statement: the statistics of a run balance whenever a step is due, and also when the run has
ended, except that nothing is learnt from the conflict that refutes the formula.
-/

namespace ClauseLearning

/-! ### Levels -/

namespace Trail

variable {t next : Trail} {k : Nat} {l : Literal} {reason : Reason} {popped : List Literal}

theorem level_of_push (ran : t.push l reason = .ok next) : next.level = t.level := by
  obtain ⟨_, _, ran⟩ := bind_eq_ok.1 ran
  obtain ⟨_, _, ran⟩ := bind_eq_ok.1 ran
  obtain ⟨_, _, made⟩ := bind_eq_ok.1 ran
  cases made
  rfl

/-- Going back leads to the level that is asked for. -/
theorem level_of_backtrackTo (ran : t.backtrackTo k = .ok (next, popped)) : next.level = k := by
  unfold backtrackTo at ran
  split at ran
  next => cases ran
  next not_above =>
    have le : k ≤ t.levelStarts.size := Nat.not_lt.1 not_above
    split at ran
    next last =>
      cases ran
      exact Nat.le_antisymm (Array.getElem?_eq_none_iff.1 last) le
    next start _ =>
      split at ran
      next => cases ran
      next =>
        obtain ⟨_, _, made⟩ := bind_eq_ok.1 ran
        cases made
        simp [level, le]

end Trail

theorem Database.level_of_reduce {d next : Database} {f g : Formula} {t u : Trail}
    {p q : Propagator} {removed : Nat} (ran : d.reduce f t p = .ok (next, g, u, q, removed)) :
    u.level = t.level := by
  unfold reduce at ran
  split at ran
  next => cases ran; rfl
  next =>
    simp only at ran
    split at ran
    next => cases ran; rfl
    next =>
      obtain ⟨⟨_, _, _, _⟩, compacted, made⟩ := bind_eq_ok.1 ran
      obtain ⟨_, _, renewed⟩ := bind_eq_ok.1 compacted
      cases renewed
      cases made
      rfl

namespace Search

variable {G : Type} {s mid next : Search G} {c : Clause} {level : Nat}

/-- The statistics agree with each other and with the level of the trail. Of the conflicts that have
been counted, `standing` have not led to a learnt clause. -/
structure Balanced (standing : Nat) (s : Search G) : Prop where
  conflicts_eq : s.statistics.conflicts = s.statistics.learntClauses + standing
  backjumps_eq : s.statistics.backjumps = s.statistics.learntClauses
  backjumps_le : s.statistics.backjumps ≤ s.statistics.totalBackjump
  max_le : s.statistics.maxBackjump ≤ s.statistics.totalBackjump
  restarts_le : s.statistics.restarts ≤ s.statistics.conflicts
  level_le : s.trail.level + s.statistics.totalBackjump ≤ s.statistics.decisions
  level_eq : s.statistics.restarts = 0 →
    s.trail.level + s.statistics.totalBackjump = s.statistics.decisions

/-! ### Stages of a conclusion -/

/-- Neither the counters nor the number of restarts nor the level has changed. -/
structure SameBooks (s next : Search G) : Prop where
  counters_eq : next.counters = s.counters
  restarts_eq : next.restarter.restarts = s.restarter.restarts
  level_eq : next.trail.level = s.trail.level

theorem Balanced.of_same {standing : Nat} (balanced : s.Balanced standing)
    (same : s.SameBooks next) : next.Balanced standing := by
  obtain ⟨counters_eq, restarts_eq, level_eq⟩ := same
  constructor <;> simp only [statistics, counters_eq, restarts_eq, level_eq]
  exacts [balanced.conflicts_eq, balanced.backjumps_eq, balanced.backjumps_le, balanced.max_le,
    balanced.restarts_le, balanced.level_le, balanced.level_eq]

theorem reward_sameBooks (ran : s.reward = .ok next) : s.SameBooks next := by
  obtain ⟨_, _, ran⟩ := bind_eq_ok.1 ran
  obtain ⟨_, _, made⟩ := bind_eq_ok.1 ran
  cases made
  exact ⟨rfl, rfl, rfl⟩

theorem backtrack_books (ran : s.backtrack level = .ok next) :
    next.counters = s.counters ∧ next.restarter = s.restarter ∧ next.trail.level = level := by
  obtain ⟨⟨_, _⟩, went, ran⟩ := bind_eq_ok.1 ran
  obtain ⟨⟨_, _⟩, _, made⟩ := bind_eq_ok.1 ran
  cases made
  exact ⟨rfl, rfl, Trail.level_of_backtrackTo went⟩

/-- The books after a backjump. -/
structure Jumped (s : Search G) (level : Nat) (next : Search G) : Prop where
  counters_eq : next.counters = s.counters.jumped (s.trail.level - level)
  restarts_eq : next.restarter.restarts = s.restarter.restarts
  level_eq : next.trail.level = level

theorem backjump_jumped (ran : s.backjump level = .ok next) : s.Jumped level next := by
  obtain ⟨counters_eq, restarter_eq, level_eq⟩ := backtrack_books ran
  exact ⟨counters_eq, congrArg Restarter.restarts restarter_eq, level_eq⟩

theorem learn_books (ran : s.learn c level = .ok next) :
    next.counters = { s.counters with learntClauses := s.counters.learntClauses + 1 } ∧
      next.restarter = s.restarter ∧ next.trail.level = s.trail.level := by
  obtain ⟨_, _, ran⟩ := bind_eq_ok.1 ran
  simp only at ran
  split at ran
  next => cases ran
  next =>
    obtain ⟨⟨_, _, _, _⟩, _, ran⟩ := bind_eq_ok.1 ran
    obtain ⟨_, pushed, made⟩ := bind_eq_ok.1 ran
    cases made
    exact ⟨rfl, rfl, Trail.level_of_push pushed⟩

theorem maintain_sameBooks (ran : s.maintain = .ok next) : s.SameBooks next := by
  unfold maintain at ran
  simp only at ran
  split at ran
  next =>
    obtain ⟨⟨_, _, _, _, _⟩, reduced, made⟩ := bind_eq_ok.1 ran
    cases made
    exact ⟨rfl, rfl, Database.level_of_reduce reduced⟩
  next =>
    cases ran
    exact ⟨rfl, rfl, rfl⟩

/-- The books once a restart has been considered: there was none, or the trail is at level 0. -/
theorem considerRestart_books (ran : s.considerRestart = .ok next) :
    next.counters = s.counters ∧
      (next.restarter.restarts = s.restarter.restarts ∧ next.trail.level = s.trail.level ∨
        next.restarter.restarts = s.restarter.restarts + 1 ∧ next.trail.level = 0) := by
  have counted := s.restarter.restarts_onConflict
  unfold considerRestart at ran
  simp only at ran
  split at ran
  next due =>
    obtain ⟨counters_eq, restarter_eq, level_eq⟩ := backtrack_books ran
    rw [if_pos due] at counted
    exact ⟨counters_eq, .inr ⟨restarter_eq ▸ counted, level_eq⟩⟩
  next early =>
    cases ran
    rw [if_neg early] at counted
    exact ⟨rfl, .inl ⟨counted, rfl⟩⟩

/-- What a conflict adds to the books once all of it has been concluded. -/
structure Closes (s : Search G) (level : Nat) (next : Search G) : Prop where
  counters_eq : next.counters =
    { s.counters.jumped (s.trail.level - level) with
      learntClauses := s.counters.learntClauses + 1 }
  restarted : next.restarter.restarts = s.restarter.restarts ∧ next.trail.level = level ∨
    next.restarter.restarts = s.restarter.restarts + 1 ∧ next.trail.level = 0

theorem conclude_closes (ran : s.conclude c level = .ok next) : s.Closes level next := by
  obtain ⟨s₁, rewarded, ran⟩ := bind_eq_ok.1 ran
  obtain ⟨s₂, jumped, ran⟩ := bind_eq_ok.1 ran
  obtain ⟨s₃, learnt, ran⟩ := bind_eq_ok.1 ran
  obtain ⟨s₄, maintained, considered⟩ := bind_eq_ok.1 ran
  have same₁ := reward_sameBooks rewarded
  have jump₂ := backjump_jumped jumped
  obtain ⟨counters₃, restarter₃, level₃⟩ := learn_books learnt
  have same₄ := maintain_sameBooks maintained
  obtain ⟨counters₅, restarted⟩ := considerRestart_books considered
  constructor
  · rw [counters₅, same₄.counters_eq, counters₃, jump₂.counters_eq, same₁.counters_eq,
      same₁.level_eq]
    rfl
  · rw [same₄.restarts_eq, same₄.level_eq, level₃, restarter₃, jump₂.restarts_eq, jump₂.level_eq,
      same₁.restarts_eq] at restarted
    exact restarted

/-! ### Steps -/

theorem Balanced.analysed (balanced : s.Balanced 0) (analyser : Analyser) :
    (s.analysed analyser).Balanced 1 where
  conflicts_eq := congrArg (· + 1) balanced.conflicts_eq
  backjumps_eq := balanced.backjumps_eq
  backjumps_le := balanced.backjumps_le
  max_le := balanced.max_le
  restarts_le := Nat.le_succ_of_le balanced.restarts_le
  level_le := balanced.level_le
  level_eq := balanced.level_eq

/-- The levels that a backjump closes move from the one side of the books to the other. -/
theorem Balanced.closes {analyser : Analyser} (balanced : s.Balanced 0)
    (closes : (s.analysed analyser).Closes level next) (lower : level < s.trail.level) :
    next.Balanced 0 := by
  obtain ⟨conflicts_eq, backjumps_eq, backjumps_le, max_le, restarts_le, level_le, level_eq⟩ :=
    balanced
  obtain ⟨counters_eq, restarted⟩ := closes
  have trail_eq : (s.analysed analyser).trail.level = s.trail.level := rfl
  have restarts_eq : (s.analysed analyser).restarter.restarts = s.restarter.restarts := rfl
  rw [trail_eq] at counters_eq
  rw [restarts_eq] at restarted
  simp only [statistics] at *
  constructor <;> simp only [statistics, counters_eq, Statistics.jumped, Search.analysed] <;> omega

theorem Balanced.branched {standing : Nat} (balanced : s.Balanced standing) (l : Literal)
    (branching : Branching G) (phases : Phases G) :
    (s.branched l branching phases).Balanced standing := by
  obtain ⟨conflicts_eq, backjumps_eq, backjumps_le, max_le, restarts_le, level_le, level_eq⟩ :=
    balanced
  have opened : (s.trail.openLevel.pushed l .decision).level = s.trail.level + 1 :=
    Array.size_push ..
  simp only [statistics] at *
  constructor <;> simp only [statistics, Search.branched, opened] <;> omega

end Search

/-- The conflicts from which nothing has been learnt: the last one, if it has refuted the
formula. -/
def Progress.standing : Progress → Nat
  | .done .unsat => 1
  | _ => 0

namespace Search

variable {G : Type} {f : Formula} {o : Options} {s : Search G} {clock : Nat → Bool}
  {control : Control}

/-- A conflict above level 0 is concluded with a jump to a lower level. -/
theorem resolveConflict_balanced {place : Nat} (invariant : s.Invariant f o (.conflict place))
    (balanced : s.Balanced 0) :
    (s.resolveConflict place).1.Balanced (s.resolveConflict place).2.standing := by
  by_cases root : s.trail.level = 0
  · simp only [resolveConflict, Analyser.analyse_root root, lesson?]
    exact balanced.analysed _
  · obtain ⟨analyser, conflict, c, level, a, others, ran, drawn, taught⟩ :=
      taught_of_invariant invariant (Nat.pos_of_ne_zero root)
    obtain ⟨next, concluded, _⟩ := conclude_ok taught
    have closes := conclude_closes concluded
    unfold analysed at concluded
    simp only [resolveConflict, ran, drawn, concluded]
    exact balanced.closes closes taught.lesson.lower

theorem step_balanced [RandomSource G] (wellFormed : f.WellFormed)
    (represented : f.numVars < literalBound) (invariant : s.Invariant f o control)
    (balanced : s.Balanced 0) :
    (s.step clock control).1.Balanced (s.step clock control).2.standing := by
  have moves := step_moves wellFormed represented clock invariant
  cases control with
  | propagate =>
    generalize s.step clock .propagate = reached at moves
    cases moves with
    | clashed propagates | settled propagates | solved propagates =>
      exact balanced.of_same ⟨rfl, rfl, congrArg Array.size propagates.grows.levelStarts_eq⟩
  | conflict place => exact resolveConflict_balanced invariant balanced
  | decide =>
    generalize s.step clock .decide = reached at moves
    cases moves with
    | halted => exact balanced
    | decided => exact balanced.branched _ _ _

/-! ### Runs -/

theorem level_of_assertUnits {consistent : Bool} {next : Trail} (cs : List Clause) :
    ∀ (place : Nat) (t : Trail), assertUnits place cs t = .ok (next, consistent) →
      next.level = t.level := by
  induction cs with
  | nil =>
    intro place t ran
    cases ran
    rfl
  | cons c rest ih =>
    intro place t ran
    rw [assertUnits] at ran
    split at ran
    next =>
      split at ran
      next => exact ih _ _ ran
      next => cases ran; rfl
      next =>
        split at ran
        next => cases ran
        next pushed => exact (ih _ _ ran).trans (Trail.level_of_push pushed)
    next => exact ih _ _ ran

theorem level_of_start (s : Search G) : s.start.1.trail.level = s.trail.level := by
  have begins := s.start_begins
  generalize s.start = reached at begins ⊢
  cases begins with
  | falsified | trivial | failed => rfl
  | clashing _ asserted | rooted _ asserted => exact level_of_assertUnits _ _ _ asserted

variable [RandomSource G]

/-- Nothing has been counted at the start. -/
theorem Assembled.balanced (assembled : s.Assembled f o) : s.start.1.Balanced 0 := by
  have level_eq := s.level_of_start
  obtain ⟨trail, started⟩ := s.start_fst
  rw [started] at level_eq ⊢
  cases assembled with
  | @ofParts kinds _ _ given =>
    have none_yet : (Restarter.make kinds.restarter given).restarts = 0 := by
      cases kinds.restarter <;> rfl
    have root : trail.level = 0 := level_eq
    constructor <;> simp [statistics, Search.ofParts, Statistics.zero, none_yet, root]

/-- Only a conflict refutes the formula once the search has started. -/
theorem conflict_of_unsat {mid last : Search G}
    (refuted : mid.step clock control = (last, .done .unsat)) :
    ∃ place, control = .conflict place := by
  cases step_ends refuted
  exact ⟨_, rfl⟩

section

variable (assembled : s.Assembled f o) (constructed : f.Constructed)
  (represented : f.numVars < literalBound)

include assembled constructed represented

theorem Reachable.balanced {next : Search G} (reachable : Reachable clock s control next) :
    next.Balanced 0 := by
  induction reachable with
  | start started =>
    have begins := assembled.balanced
    rw [started] at begins
    exact begins
  | step earlier stepped ih =>
    have kept := @step_balanced G f o _ clock _ _ constructed.wellFormed.1 represented
      (earlier.invariant assembled constructed represented) ih
    rw [stepped] at kept
    exact kept

/-- A step keeps the balance up to the conflict that it ends the search with. -/
theorem Reachable.balanced_step {mid : Search G} (reachable : Reachable clock s control mid) :
    (mid.step clock control).1.Balanced (mid.step clock control).2.standing :=
  step_balanced constructed.wellFormed.1 represented
    (reachable.invariant assembled constructed represented)
    (reachable.balanced assembled constructed represented)

/-- A backjump closes at least one level, and it is counted with the levels that it closes. -/
theorem Reachable.backjump_closes {place level : Nat} {mid next : Search G} {analyser : Analyser}
    {conflict : Conflict} {c : Clause} (reachable : Reachable clock s (.conflict place) mid)
    (ran : mid.analyser.analyse mid.formula mid.trail place = .ok (analyser, .ok conflict))
    (drawn : lesson? conflict = some (c, level))
    (concluding : Concluding (mid.analysed analyser) c level .jumped next) :
    next.trail.level < mid.trail.level ∧
      next.statistics.totalBackjump =
        mid.statistics.totalBackjump + (mid.trail.level - next.trail.level) := by
  obtain ⟨a, others, taught⟩ := reachable.taught assembled constructed represented ran drawn
  have lower : level < mid.trail.level := taught.lesson.lower
  cases concluding with
  | jumped before jumped =>
    cases before with
    | rewarded rewarded =>
      have same := reward_sameBooks rewarded
      have jump := backjump_jumped jumped
      simp only [statistics, jump.level_eq, jump.counters_eq, same.counters_eq, same.level_eq]
      exact ⟨lower, rfl⟩

/-- A search that has started refutes the formula at a conflict, from which nothing is learnt. -/
theorem balanced_of_unsat {first : Search G} (started : s.start = (first, .next control))
    (answered : (s.solveAgainst clock).2 = .verdict .unsat) :
    (∃ place mid, Reachable clock s (.conflict place) mid ∧
      (mid.step clock (.conflict place)).2 = .done .unsat) ∧
    (s.solveAgainst clock).1.Balanced 1 := by
  obtain ⟨final, mid, last, verdict, reachable, stepped, ended⟩ :=
    solveAgainst_ends clock assembled constructed represented started
  rw [ended] at answered ⊢
  cases answered
  obtain ⟨place, rfl⟩ := conflict_of_unsat stepped
  have kept := reachable.balanced_step assembled constructed represented
  rw [stepped] at kept
  exact ⟨⟨place, mid, reachable, by rw [stepped]⟩, kept.of_same ⟨rfl, rfl, rfl⟩⟩

theorem balanced_of_ne_unsat (known : (s.solveAgainst clock).2 ≠ .verdict .unsat) :
    (s.solveAgainst clock).1.Balanced 0 := by
  have begins := assembled.balanced
  cases started : s.start with
  | mk first progress =>
    cases progress with
    | next control =>
      obtain ⟨final, mid, last, verdict, reachable, stepped, ended⟩ :=
        solveAgainst_ends clock assembled constructed represented started
      rw [ended] at known ⊢
      have kept := reachable.balanced_step assembled constructed represented
      rw [stepped] at kept
      cases verdict with
      | unsat => exact absurd rfl known
      | sat | unknown => exact kept.of_same ⟨rfl, rfl, rfl⟩
    | done verdict =>
      rw [solveAgainst_eq_after clock assembled.fresh, started]
      rw [started] at begins
      exact begins.of_same ⟨rfl, rfl, rfl⟩
    | failed fault =>
      rw [solveAgainst_eq_after clock assembled.fresh, started]
      rw [started] at begins
      exact begins

end

/-- Whenever a step is due the statistics balance: there have been as many conflicts as learnt
clauses and backjumps, and no more restarts; the longest backjump is no longer than all together;
and the decisions are at least as many as the current level and the levels that backjumps have
closed, and exactly as many without restarts. Each backjump closes at least one level. When the
formula has been refuted by a conflict, this conflict has been counted and nothing has been learnt
from it; with any other answer the statistics balance as they do in between. -/
theorem statistics_balance (clock : Nat → Bool) (assembled : s.Assembled f o)
    (constructed : f.Constructed) (represented : f.numVars < literalBound) :
    (∀ {control : Control} {next : Search G}, Reachable clock s control next → next.Balanced 0) ∧
    (∀ {place level : Nat} {mid next : Search G} {analyser : Analyser} {conflict : Conflict}
      {c : Clause}, Reachable clock s (.conflict place) mid →
      mid.analyser.analyse mid.formula mid.trail place = .ok (analyser, .ok conflict) →
      lesson? conflict = some (c, level) →
      Concluding (mid.analysed analyser) c level .jumped next →
      next.trail.level < mid.trail.level ∧
        next.statistics.totalBackjump =
          mid.statistics.totalBackjump + (mid.trail.level - next.trail.level)) ∧
    (∀ {control : Control} {first : Search G}, s.start = (first, .next control) →
      (s.solveAgainst clock).2 = .verdict .unsat →
      (∃ place mid, Reachable clock s (.conflict place) mid ∧
        (mid.step clock (.conflict place)).2 = .done .unsat) ∧
      (s.solveAgainst clock).1.Balanced 1) ∧
    ((s.solveAgainst clock).2 ≠ .verdict .unsat → (s.solveAgainst clock).1.Balanced 0) :=
  ⟨fun reachable => reachable.balanced assembled constructed represented,
    fun reachable => reachable.backjump_closes assembled constructed represented,
    balanced_of_unsat assembled constructed represented,
    balanced_of_ne_unsat assembled constructed represented⟩

/-- Two decisions lead to a conflict, and a clause is learnt from it. Another formula is refuted by
its first conflict. -/
theorem statistics_balance_conflicts :
    (∃ f, Formula.ofClauses [[-1, 4], [-2, 3], [-1, -2, -3]] = .ok f ∧
      ∃ s : Search, build f Options.standard Strategies.plain = .ok s ∧
      ∃ next, Reachable (fun _ => false) s .propagate next ∧ next.statistics.decisions = 2 ∧
        next.Balanced 0) ∧
    ∃ f, Formula.ofClauses [[1], [-1, 2], [-1, -2]] = .ok f ∧
      ∃ s : Search, build f Options.standard Strategies.plain = .ok s ∧
      s.solve.2 = .verdict .unsat ∧ s.solve.1.statistics.conflicts = 1 ∧ s.solve.1.Balanced 1 := by
  constructor
  · have run : ∃ f, Formula.ofClauses [[-1, 4], [-2, 3], [-1, -2, -3]] = .ok f ∧
        f.numVars < literalBound ∧ ∃ s : Search, build f Options.standard Strategies.plain = .ok s ∧
        ∃ mid, Reachable (fun _ => false) s (.conflict 2) mid ∧ 0 < mid.trail.level ∧
          mid.counters.decisions = 2 :=
      ⟨_, rfl, by decide, _, rfl, _,
        @reachable_of_progress _ _ _ _ 5 .propagate _ (by decide +kernel) (by decide +kernel),
        by decide +kernel, by decide +kernel⟩
    obtain ⟨f, made, represented, s, built, mid, reachable, above, decided⟩ := run
    have assembled := assembled_of_build built
    have constructed := Formula.Constructed.ofClauses made
    obtain ⟨next, ran, _⟩ :=
      resolveConflict_ok (reachable.invariant assembled constructed represented) above
    have stepped : Reachable (fun _ => false) s .propagate next := .step reachable ran
    have serves := mid.resolveConflict_serves 2
    rw [ran] at serves
    exact ⟨f, made, s, built, next, stepped, serves.decided_eq.trans decided,
      (statistics_balance (fun _ => false) assembled constructed represented).1 stepped⟩
  · have run : ∃ f, Formula.ofClauses [[1], [-1, 2], [-1, -2]] = .ok f ∧
        f.numVars < literalBound ∧ ∃ s : Search, build f Options.standard Strategies.plain = .ok s ∧
        s.start.2 = .next .propagate ∧ s.solve.2 = .verdict .unsat ∧
        s.solve.1.statistics.conflicts = 1 :=
      ⟨_, rfl, by decide, _, rfl, by decide +kernel, by decide +kernel, by decide +kernel⟩
    obtain ⟨f, made, represented, s, built, started, answered, conflicts⟩ := run
    exact ⟨f, made, s, built, answered, conflicts, ((statistics_balance (fun _ => false)
      (assembled_of_build built) (.ofClauses made) represented).2.2.1 (Prod.ext rfl started)
      answered).2⟩

end Search

end ClauseLearning
