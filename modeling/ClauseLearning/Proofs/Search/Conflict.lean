import ClauseLearning.Proofs.Database.Counting
import ClauseLearning.Proofs.Search.Invariant

/-!
# What becomes of a conflict

Above level 0 a conflict is analysed, the clauses and variables involved are rewarded, the trail
goes back, the learnt clause is stored, the database is looked after and perhaps the search
restarts.

Main statement: from a steady search whose propagator was interrupted by a conflict, all of this
succeeds and leads to a steady search whose propagator is ready. There is one learnt clause more,
unless the database has been reduced, which raises its limit.
-/

namespace ClauseLearning

namespace Lesson

theorem of_rescored {f g : Formula} {t : Trail} {a : Literal} {others : List Literal} {level : Nat}
    (lesson : Lesson f t a others level) (rescored : f.Rescored g) : Lesson g t a others level :=
  { lesson with
    follows := fun σ models => lesson.follows σ fun place ls found =>
      models place ls ((rescored.literalsAt_eq place).trans found) }

end Lesson

namespace Search

variable {G : Type}

variable {base : Formula} {o : Options}

/-! ### Books -/

/-- All learnt clauses are there, except for those that have been removed. -/
def Tallied (s : Search G) : Prop :=
  s.formula.size + s.database.removed = s.formula.inputCount + s.counters.learntClauses

theorem Tallied.of_eq {s next : Search G} (tallied : s.Tallied)
    (size_eq : next.formula.size = s.formula.size)
    (inputCount_eq : next.formula.inputCount = s.formula.inputCount)
    (removed_eq : next.database.removed = s.database.removed)
    (counted_eq : next.counters.learntClauses = s.counters.learntClauses) : next.Tallied := by
  rw [Tallied, size_eq, inputCount_eq, removed_eq, counted_eq]
  exact tallied

/-! ### Analysis -/

/-- The search once a conflict has been counted and analysed. -/
def analysed (s : Search G) (analyser : Analyser) : Search G :=
  { s with
    counters := { s.counters with conflicts := s.counters.conflicts + 1 }
    analyser := analyser }

/-- A steady search that has learnt from a conflict the clause `c` with the literals `a :: others`,
to be stored after going back to `level`. -/
structure Taught (base : Formula) (o : Options) (c : Clause) (level : Nat) (a : Literal)
    (others : List Literal) (s : Search G) : Prop where
  steady : s.Steady base o
  interrupted : s.propagator.Interrupted s.formula s.trail
  finished : s.analyser.Finished s.formula s.trail s.formula.numVars
  lesson : Lesson s.formula s.trail a others level
  shape : c.literals = a :: others
  present : c.deleted = false

/-- Every conflict above level 0 teaches a clause. -/
theorem taught_of_invariant {s : Search G} {place : Nat}
    (invariant : s.Invariant base o (.conflict place)) (above : 0 < s.trail.level) :
    ∃ analyser conflict c level a others,
      s.analyser.analyse s.formula s.trail place = .ok (analyser, .ok conflict) ∧
      lesson? conflict = some (c, level) ∧
      Taught base o c level a others (s.analysed analyser) := by
  obtain ⟨steady, interrupted, ls, found, refuted⟩ := invariant
  obtain ⟨analyser, conflict, c, level, a, others, ran, drawn, shape, present, lesson,
      finished⟩ := Analyser.analyse_of_coherent steady.coherent found refuted above steady.clear
  exact ⟨analyser, conflict, c, level, a, others, ran, drawn,
    ⟨steady.elaborates, steady.coherent, finished.clear, steady.indexes, steady.covers,
      steady.sized, steady.options_eq⟩, interrupted, finished, lesson, shape, present⟩

/-! ### Rewards -/

theorem reward_ok {s : Search G} (steady : s.Steady base o)
    (resolved : ∀ place ∈ s.analyser.resolved, place < s.formula.size)
    (involved : ∀ v ∈ s.analyser.involved, 0 < v ∧ v ≤ s.formula.numVars) :
    ∃ formula branching, s.reward = .ok { s with formula := formula, branching := branching } ∧
      s.formula.Rescored formula ∧
      ({ s with formula := formula, branching := branching }).Steady base o := by
  obtain ⟨formula, ran, rescored⟩ := s.database.bumps_ok fun place member =>
    resolved place (Array.mem_toList_iff.1 member)
  obtain ⟨branching, bumped, covers⟩ := steady.covers.bumps fun v member =>
    involved v (Array.mem_toList_iff.1 member)
  refine ⟨formula, branching.decay, ?_, rescored, ⟨steady.elaborates.of_same rescored.same,
    rescored.coherent steady.coherent, ?_, steady.indexes.of_same rescored.same, ?_, ?_,
    steady.options_eq⟩⟩
  · simp only [reward, ran, ok_bind, bumped, pure_eq_ok]
  · rw [rescored.numVars_eq]
    exact steady.clear
  · rw [rescored.numVars_eq]
    exact covers.decay
  · rw [rescored.numVars_eq]
    exact steady.sized

/-! ### Going back -/

/-- A steady search that is about to store a clause and to assign the literal it asserts: the trail
has gone back as far as the clause asks for. -/
structure Poised (base : Formula) (o : Options) (a : Literal) (others : List Literal)
    (s : Search G) : Prop where
  steady : s.Steady base o
  ready : s.propagator.Ready s.formula s.trail
  done : s.trail.head = s.trail.size
  asserts : s.trail.Asserts s.formula.numVars a others
  novel : ∀ {place ls}, s.formula.literalsAt place = some ls → ¬∀ l, l ∈ ls ↔ l ∈ a :: others
  follows : ∀ σ, s.formula.Models σ → SomeTrue σ (a :: others)

theorem backjump_ok {s : Search G} {a : Literal} {others : List Literal} {level : Nat}
    (steady : s.Steady base o) (interrupted : s.propagator.Interrupted s.formula s.trail)
    (lesson : Lesson s.formula s.trail a others level) :
    ∃ next, s.backjump level = .ok next ∧ Poised base o a others next ∧
      next.formula = s.formula ∧ next.database = s.database ∧
      next.counters.learntClauses = s.counters.learntClauses := by
  -- The jump is counted before it is made.
  obtain ⟨next, jumped, went⟩ := @backtrack_ok G
    { s with counters := s.counters.jumped (s.trail.level - level) } level
    steady.coherent.valid steady.covers steady.sized (Nat.le_of_lt lesson.lower)
  have formula_eq : next.formula = s.formula := went.formula_eq
  obtain ⟨steady_next, ready, done⟩ := @WentBack.steady G base o _ next level went
    ⟨steady.elaborates, steady.coherent, steady.clear, steady.indexes, steady.covers,
      steady.sized, steady.options_eq⟩ lesson.lower interrupted
  refine ⟨next, jumped, ⟨steady_next, ready, done, ?_, ?_, ?_⟩, formula_eq, went.database_eq,
    by rw [went.counters_eq]; rfl⟩
  · rw [formula_eq]
    exact lesson.asserts steady.coherent went.valid went.back
  · rw [formula_eq]
    exact lesson.novel steady.coherent
  · rw [formula_eq]
    exact lesson.follows

/-! ### Learning -/

/-- A steady search in which the learnt clause has been stored. -/
structure Learnt (base : Formula) (o : Options) (s next : Search G) : Prop where
  steady : next.Steady base o
  ready : next.propagator.Ready next.formula next.trail
  size_eq : next.formula.size = s.formula.size + 1
  inputCount_eq : next.formula.inputCount = s.formula.inputCount
  limit_eq : next.database.limit? = s.database.limit?
  retains : s.formula.Retains next.formula
  tallied : s.Tallied → next.Tallied

theorem learn_ok {s : Search G} {c : Clause} {a : Literal} {others : List Literal} {level : Nat}
    (poised : Poised base o a others s) (shape : c.literals = a :: others)
    (present : c.deleted = false) :
    ∃ next, s.learn c level = .ok next ∧ Learnt base o s next := by
  obtain ⟨steady, ready, done, asserts, novel, follows⟩ := poised
  have wellFormed := steady.coherent.wellFormed
  obtain ⟨propagator, added, ready_next⟩ := ready.learn steady.coherent done asserts shape
  obtain ⟨database, inserted, indexes, reduction_eq⟩ :=
    steady.indexes.insert (fun _ found perm => novel found fun l => shape ▸ perm.mem_iff)
      wellFormed.input_le added
  obtain ⟨pushed, coherent⟩ := steady.coherent.learn asserts shape present
  have first : c.get 0 = .ok a := by simp [Clause.get, shape]
  -- So the asserted literal passes the check that it has no value.
  have free : (s.trail.values.literalValue? a).isSome = false := by
    simp [Assignment.literalValue?, asserts.free]
  have grows := Trail.Extends.pushed s.trail a (.clause s.formula.size)
  refine ⟨{ s with
      database := database
      formula := s.formula.push c
      propagator := propagator
      trail := s.trail.pushed a (.clause s.formula.size)
      counters := { s.counters with learntClauses := s.counters.learntClauses + 1 } }, ?_,
    ⟨⟨?_, coherent, steady.clear, indexes, ?_, steady.sized, steady.options_eq⟩, ready_next,
      by simp [Formula.push, Formula.size], rfl, by simp [Database.limit?, reduction_eq],
      Formula.retains_push _ _, fun tallied => ?_⟩⟩
  · simp only [learn, first, ok_bind, free, Bool.false_eq_true, if_false, inserted, pushed,
      pure_eq_ok]
  · exact steady.elaborates.push wellFormed (shape ▸ follows)
  · exact steady.covers.mono fun v _ _ is_free =>
      grows.free steady.coherent.valid.toRecorded coherent.valid.toRecorded is_free
  · have removed_eq : database.removed = s.database.removed := by
      rw [Database.removed, Database.removed, reduction_eq]
    unfold Tallied at tallied ⊢
    simp only [Formula.push, Formula.size, Array.size_push, removed_eq] at tallied ⊢
    omega

/-! ### Looking after the database -/

/-- How the number of learnt clauses and the limit of the database change: both stay, or the
database had grown past its limit, which has been raised. -/
structure Maintained (s next : Search G) : Prop where
  inputCount_eq : next.formula.inputCount = s.formula.inputCount
  numVars_eq : next.formula.numVars = s.formula.numVars
  outcome : next.formula.size = s.formula.size ∧ next.database.limit? = s.database.limit? ∨
    next.formula.size ≤ s.formula.size ∧ ∃ k m, s.database.limit? = some k ∧
      next.database.limit? = some m ∧ k < m ∧ k < s.formula.size - s.formula.inputCount
  retains : s.database.limit? = none → s.formula.Retains next.formula
  tallied : s.Tallied → next.Tallied

theorem limit_of_shouldReduce {d : Database} {f : Formula} (due : d.shouldReduce f = true) :
    ∃ k, d.limit? = some k ∧ k < f.size - f.inputCount := by
  unfold Database.shouldReduce at due
  cases reduction : d.reduction with
  | none => simp [reduction] at due
  | some r =>
    simp only [reduction, decide_eq_true_eq] at due
    exact ⟨r.limit, by simp [Database.limit?, reduction], due⟩

/-- The search once its database has taken note of the conflict, before it may be reduced. -/
def noted (s : Search G) : Search G :=
  { s with
    database := (s.database.onConflict s.formula).1
    formula := (s.database.onConflict s.formula).2 }

/-- Taking note of a conflict changes only activities, and all that is known carries over to the
rescored clauses. -/
theorem noted_ok {s : Search G} (steady : s.Steady base o)
    (ready : s.propagator.Ready s.formula s.trail) :
    s.noted.Steady base o ∧ s.noted.propagator.Ready s.noted.formula s.noted.trail ∧
      s.formula.Rescored s.noted.formula ∧ s.noted.database.limit? = s.database.limit? ∧
      (s.Tallied → s.noted.Tallied) := by
  obtain ⟨rescored, index_eq, limit_eq, removed_eq⟩ := s.database.onConflict_rescored s.formula
  have numVars_eq : s.noted.formula.numVars = s.formula.numVars := rescored.numVars_eq
  refine ⟨⟨steady.elaborates.of_same rescored.same, rescored.coherent steady.coherent, ?_, ?_, ?_,
    ?_, steady.options_eq⟩, rescored.ready ready, rescored, limit_eq, fun tallied =>
      tallied.of_eq rescored.size_eq rescored.inputCount_eq removed_eq rfl⟩
  · rw [numVars_eq]
    exact steady.clear
  · intro key place
    rw [noted, index_eq]
    exact steady.indexes.of_same rescored.same key place
  · rw [numVars_eq]
    exact steady.covers
  · rw [numVars_eq]
    exact steady.sized

theorem maintain_ok {s : Search G} (steady : s.Steady base o)
    (ready : s.propagator.Ready s.formula s.trail) :
    ∃ next, s.maintain = .ok next ∧ next.Steady base o ∧
      next.propagator.Ready next.formula next.trail ∧ Maintained s next := by
  obtain ⟨steady_noted, ready_noted, rescored, limit_eq, tallied_noted⟩ := noted_ok steady ready
  by_cases due : s.noted.database.shouldReduce s.noted.formula = true
  · -- The database has grown past its limit.
    obtain ⟨k, at_limit, grown⟩ := limit_of_shouldReduce due
    obtain ⟨d, g, u, q, removed, ran, keeps, reduces⟩ :=
      Database.reduce_ok ⟨steady_noted.coherent, ready_noted, steady_noted.indexes⟩
    obtain ⟨m, raised, more⟩ := reduces.limit at_limit
    have numVars_g : g.numVars = s.noted.formula.numVars := reduces.numVars_eq
    refine ⟨{ s with database := d, formula := g, trail := u, propagator := q }, ?_,
      ⟨steady_noted.elaborates.reduce reduces, keeps.coherent, ?_, keeps.indexes, ?_, ?_,
        steady.options_eq⟩,
      keeps.ready, reduces.inputCount_eq.trans rescored.inputCount_eq,
      numVars_g.trans rescored.numVars_eq, .inr ⟨?_, ?_⟩, ?_, fun tallied => ?_⟩
    · unfold noted at due ran
      simp only [maintain, due, if_true, ran, ok_bind, pure_eq_ok]
    · rw [numVars_g]
      exact steady_noted.clear
    -- Compaction leaves the values as they are, so the same variables are free.
    · rw [numVars_g]
      refine steady_noted.covers.mono fun v _ _ is_free => ?_
      rw [Free, reduces.values_eq] at is_free
      exact is_free
    · rw [numVars_g]
      exact steady_noted.sized
    -- What the measure needs: no more clauses than before, and a higher limit.
    · rw [← rescored.size_eq]
      exact reduces.size_le
    · rw [rescored.size_eq, rescored.inputCount_eq] at grown
      exact ⟨k, m, limit_eq ▸ at_limit, raised, more, grown⟩
    · intro unlimited
      rw [limit_eq, unlimited] at at_limit
      cases at_limit
    -- What is missing in the formula has been added to the number of removed clauses.
    · have noted := tallied_noted tallied
      have balance := reduces.balance
      have inputCount_eq := reduces.inputCount_eq
      unfold Tallied at noted ⊢
      simp only at noted ⊢
      change _ = _ + s.counters.learntClauses at noted
      omega
  · refine ⟨s.noted, ?_, steady_noted, ready_noted, rescored.inputCount_eq, rescored.numVars_eq,
      .inl ⟨rescored.size_eq, limit_eq⟩, fun _ => rescored.same.retains, tallied_noted⟩
    unfold noted at due
    simp only [maintain, due, Bool.false_eq_true, if_false, pure_eq_ok]
    rfl

/-! ### Restarts -/

theorem considerRestart_ok {s : Search G} (steady : s.Steady base o)
    (ready : s.propagator.Ready s.formula s.trail) :
    ∃ next, s.considerRestart = .ok next ∧ next.Steady base o ∧
      next.propagator.Ready next.formula next.trail ∧ next.formula = s.formula ∧
      next.database = s.database ∧ next.counters = s.counters := by
  cases counted : s.restarter.onConflict with
  | mk restarter due =>
    let mid : Search G := { s with restarter := restarter }
    have steady_mid : mid.Steady base o :=
      ⟨steady.elaborates, steady.coherent, steady.clear, steady.indexes, steady.covers,
        steady.sized, steady.options_eq⟩
    cases due with
    | false =>
      exact ⟨mid, by simp [considerRestart, counted, mid], steady_mid, ready, rfl, rfl, rfl⟩
    | true =>
      have restart_eq : s.considerRestart = mid.backtrack 0 := by
        simp [considerRestart, counted, mid]
      rw [restart_eq]
      -- At level 0 a restart changes nothing, and the propagator has not been interrupted by it.
      by_cases root : mid.trail.level = 0
      · have stays := mid.backtrack_current
        rw [root] at stays
        exact ⟨mid, stays, steady_mid, ready, rfl, rfl, rfl⟩
      · obtain ⟨next, ran, went⟩ := backtrack_ok steady_mid.coherent.valid steady_mid.covers
          steady_mid.sized (Nat.zero_le _)
        obtain ⟨steady_next, ready_next, _⟩ :=
          went.steady steady_mid (Nat.pos_of_ne_zero root) ready.interrupted
        exact ⟨next, ran, steady_next, ready_next, went.formula_eq, went.database_eq,
          went.counters_eq⟩

/-! ### The whole of it -/

/-- What a conflict above level 0 leads to. -/
structure Resolved (base : Formula) (o : Options) (s next : Search G) : Prop where
  steady : next.Steady base o
  ready : next.propagator.Ready next.formula next.trail
  numVars_eq : next.formula.numVars = s.formula.numVars
  inputCount_eq : next.formula.inputCount = s.formula.inputCount
  room : s.formula.size + 1 - s.formula.inputCount ≤ 3 ^ s.formula.numVars
  outcome : next.formula.size = s.formula.size + 1 ∧
      next.database.limit? = s.database.limit? ∨
    next.formula.size ≤ s.formula.size + 1 ∧ ∃ k m, s.database.limit? = some k ∧
      next.database.limit? = some m ∧ k < m ∧ k < s.formula.size + 1 - s.formula.inputCount
  retains : s.database.limit? = none → s.formula.Retains next.formula
  tallied : s.Tallied → next.Tallied

theorem conclude_ok {s : Search G} {c : Clause} {a : Literal} {others : List Literal} {level : Nat}
    (taught : Taught base o c level a others s) :
    ∃ next, s.conclude c level = .ok next ∧ Resolved base o s next := by
  obtain ⟨steady, interrupted, finished, lesson, shape, present⟩ := taught
  obtain ⟨formula, branching, rewarded, rescored, steady₁⟩ :=
    reward_ok steady finished.resolved_lt (finished.involved_inside steady.coherent.valid)
  obtain ⟨s₂, jumped, poised, formula₂, database₂, counted₂⟩ := backjump_ok steady₁
    (rescored.interrupted interrupted) (lesson.of_rescored rescored)
  obtain ⟨s₃, learnt, learnt₃⟩ :=
    @learn_ok G base o s₂ c a others level poised shape present
  obtain ⟨s₄, maintained, steady₄, ready₄, maintained₄⟩ := maintain_ok learnt₃.steady learnt₃.ready
  obtain ⟨s₅, restarted, steady₅, ready₅, formula_eq, database_eq, counters_eq⟩ :=
    considerRestart_ok steady₄ ready₄
  have size₃ : s₃.formula.size = s.formula.size + 1 := by
    rw [learnt₃.size_eq, formula₂]
    exact congrArg (· + 1) rescored.size_eq
  have inputCount₃ : s₃.formula.inputCount = s.formula.inputCount := by
    rw [learnt₃.inputCount_eq, formula₂]
    exact rescored.inputCount_eq
  have numVars₃ : s₃.formula.numVars = s.formula.numVars := by
    rw [learnt₃.steady.elaborates.numVars_eq, steady.elaborates.numVars_eq]
  have limit₃ : s₃.database.limit? = s.database.limit? := by
    rw [learnt₃.limit_eq, database₂]
  have retains₂ : s.formula.Retains s₂.formula := by
    rw [formula₂]
    exact rescored.same.retains
  refine ⟨s₅, ?_, steady₅, ready₅, ?_, ?_, ?_, ?_, fun unlimited => ?_, fun tallied => ?_⟩
  · simp only [conclude, rewarded, ok_bind, jumped, learnt, maintained, restarted]
  · rw [formula_eq, maintained₄.numVars_eq, numVars₃]
  · rw [formula_eq, maintained₄.inputCount_eq, inputCount₃]
  · -- The new clause is counted before the database may be reduced.
    have room := learnt₃.steady.indexes.learntOnce.count_le learnt₃.steady.coherent.wellFormed
    rw [size₃, inputCount₃, numVars₃] at room
    exact room
  · rw [formula_eq, database_eq, ← size₃, ← inputCount₃, ← limit₃]
    exact maintained₄.outcome
  · rw [formula_eq]
    exact (retains₂.trans learnt₃.retains).trans (maintained₄.retains (limit₃.trans unlimited))
  · have tallied₂ : s₂.Tallied :=
      tallied.of_eq (by rw [formula₂]; exact rescored.size_eq)
        (by rw [formula₂]; exact rescored.inputCount_eq) (by rw [database₂]) counted₂
    exact (maintained₄.tallied (learnt₃.tallied tallied₂)).of_eq (by rw [formula_eq])
      (by rw [formula_eq]) (by rw [database_eq]) (by rw [counters_eq])

end Search

end ClauseLearning
