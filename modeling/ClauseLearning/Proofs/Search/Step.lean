import ClauseLearning.Proofs.Model
import ClauseLearning.Proofs.Search.Conflict

/-!
# One step of a search

Main statement: a step from a search that meets the invariant leads to such a search again, nearer
to its end, or to an answer that is right. It never fails.

How far a search is from its end is measured by the clauses that can still be learnt and by the
variables without a value. A conflict adds a clause that was not stored, or it raises the limit of
the database; there are no more than `3 ^ n` clauses, and a limit beyond that is never met. Between
two conflicts every step assigns variables or is followed by one that does.
-/

namespace ClauseLearning

/-- Some limit may end the search without an answer. -/
def Options.Limited (o : Options) : Prop :=
  o.maxConflicts ≠ none ∨ o.maxDecisions ≠ none ∨ o.timeLimit ≠ none

/-- A limit has been reached: on conflicts, on decisions, or on time. -/
def Options.Exhausted (o : Options) (counters : Statistics) (timeIsUp : Bool) : Prop :=
  (∃ n ≤ counters.conflicts, o.maxConflicts = some n) ∨
    (∃ n ≤ counters.decisions, o.maxDecisions = some n) ∨
      ∃ n, o.timeLimit = some n ∧ (n = 0 ∨ timeIsUp = true)

theorem Options.Exhausted.limited {o : Options} {counters : Statistics} {timeIsUp : Bool}
    (exhausted : o.Exhausted counters timeIsUp) : o.Limited := by
  rcases exhausted with ⟨n, _, limit⟩ | ⟨n, _, limit⟩ | ⟨n, limit, _⟩
  · exact .inl (by simp [limit])
  · exact .inr (.inl (by simp [limit]))
  · exact .inr (.inr (by simp [limit]))

/-- A verdict is right about a formula; only limits excuse not to know. -/
def Verdict.Answers (base : Formula) (o : Options) : Verdict → Prop
  | .sat m => base.SolvedBy m
  | .unsat => ¬base.Satisfiable
  | .unknown => o.Limited

namespace Search

variable {G : Type}

/-! ### How far it is to the end -/

/-- The number of learnt clauses. -/
def learnt (s : Search G) : Nat :=
  s.formula.size - s.formula.inputCount

/-- The number of clauses over the variables of the formula. -/
def capacity (s : Search G) : Nat :=
  3 ^ s.formula.numVars

/-- What is left to learn: first the limits to raise, then the clauses to store. -/
def unlearnt (s : Search G) : Nat :=
  (s.capacity - (s.database.limit?).getD s.capacity) * (s.capacity + 1) + (s.capacity - s.learnt)

/-- How much is to be done before the next conflict. -/
def pending (s : Search G) : Control → Nat
  | .propagate => 2 * (s.formula.numVars - s.trail.size) + 2
  | .conflict _ => 0
  | .decide => 2 * (s.formula.numVars - s.trail.size) + 1

/-- How far it is to the end. -/
def toGo (s : Search G) (control : Control) : Nat :=
  s.unlearnt * (2 * s.formula.numVars + 3) + s.pending control

/-- What a step leads to: a search that is nearer to its end, or a right answer. -/
def Leads (base : Formula) (o : Options) (distance : Nat) : Search G × Progress → Prop
  | (next, .next control) => next.Invariant base o control ∧ next.toGo control < distance
  | (_, .done verdict) => verdict.Answers base o
  | (_, .failed _) => False

theorem unlearnt_congr {s next : Search G} (numVars_eq : next.formula.numVars = s.formula.numVars)
    (inputCount_eq : next.formula.inputCount = s.formula.inputCount)
    (size_eq : next.formula.size = s.formula.size)
    (limit_eq : next.database.limit? = s.database.limit?) : next.unlearnt = s.unlearnt := by
  simp only [unlearnt, capacity, learnt, numVars_eq, inputCount_eq, size_eq, limit_eq]

/-- A clause more, or a limit raised. -/
theorem unlearnt_lt {base : Formula} {o : Options} {s next : Search G}
    (steady : s.Steady base o) (resolved : Resolved base o s next) :
    next.unlearnt < s.unlearnt := by
  have input_le := steady.coherent.wellFormed.input_le
  have room := resolved.room
  simp only [unlearnt, capacity, learnt, resolved.numVars_eq, resolved.inputCount_eq]
  generalize 3 ^ s.formula.numVars = bound at room ⊢
  rcases resolved.outcome with ⟨size_eq, limit_eq⟩ | ⟨size_le, k, m, old, new, raised, grown⟩
  · rw [limit_eq, size_eq]
    -- The limit is as before, and there is one clause less to store.
    have fewer : bound - (s.formula.size + 1 - s.formula.inputCount) <
        bound - (s.formula.size - s.formula.inputCount) := by
      omega
    omega
  · rw [old, new, Option.getD_some, Option.getD_some]
    -- The limit was below the number of clauses and has been raised, which outweighs all
    -- clauses that have been removed.
    have below : k < bound := Nat.lt_of_lt_of_le grown room
    have split : (bound - k) * (bound + 1) = (bound - k - 1) * (bound + 1) + (bound + 1) := by
      rw [← Nat.succ_mul]
      congr 1
      omega
    have product : (bound - m) * (bound + 1) ≤ (bound - k - 1) * (bound + 1) :=
      Nat.mul_le_mul_right _ (by omega)
    omega

variable {base : Formula} {o : Options}

theorem toGo_congr {s next : Search G} {control after : Control}
    (numVars_eq : next.formula.numVars = s.formula.numVars) (same : next.unlearnt = s.unlearnt)
    (less : next.pending after < s.pending control) : next.toGo after < s.toGo control := by
  simp only [toGo, numVars_eq, same]
  omega

/-- After a conflict there may be everything to assign again, but there is less to learn. -/
theorem toGo_resolved {s next : Search G} {place : Nat} (steady : s.Steady base o)
    (resolved : Resolved base o s next) : next.toGo .propagate < s.toGo (.conflict place) := by
  have less := unlearnt_lt steady resolved
  have product : (next.unlearnt + 1) * (2 * s.formula.numVars + 3) ≤
      s.unlearnt * (2 * s.formula.numVars + 3) := Nat.mul_le_mul_right _ less
  rw [Nat.succ_mul] at product
  simp only [toGo, pending, resolved.numVars_eq]
  omega

/-! ### Conflicts -/

/-- A conflict above level 0 is resolved, and propagation is next. -/
theorem resolveConflict_ok {s : Search G} {place : Nat}
    (invariant : s.Invariant base o (.conflict place)) (above : 0 < s.trail.level) :
    ∃ next, s.resolveConflict place = (next, .next .propagate) ∧ Resolved base o s next := by
  obtain ⟨analyser, conflict, c, level, a, others, ran, drawn, taught⟩ :=
    taught_of_invariant invariant above
  -- The conflict is counted before it is analysed.
  obtain ⟨next, concluded, resolved⟩ := conclude_ok taught
  unfold analysed at concluded
  refine ⟨next, by simp only [resolveConflict, ran, drawn, concluded], ?_⟩
  exact ⟨resolved.steady, resolved.ready, resolved.numVars_eq, resolved.inputCount_eq,
    resolved.room, resolved.outcome, resolved.retains, fun tallied => resolved.tallied tallied⟩

/-! ### Propagation -/

/-- A steady search after propagation. -/
theorem Steady.propagated {s : Search G} {q : Propagator} {trail : Trail} {g : Formula}
    {conflict : Option Nat} (steady : s.Steady base o)
    (propagates : Propagates s.formula s.trail g trail conflict) :
    ({ s with propagator := q, trail := trail, formula := g } : Search G).Steady base o := by
  have numVars_eq := propagates.same.numVars_eq
  have valid : trail.Valid s.formula.numVars := numVars_eq ▸ propagates.coherent.valid
  refine ⟨steady.elaborates.of_same propagates.same, propagates.coherent, ?_,
    steady.indexes.of_same propagates.same, ?_, ?_, steady.options_eq⟩
  · rw [numVars_eq]
    exact steady.clear
  · rw [numVars_eq]
    exact steady.covers.mono fun v _ _ is_free =>
      propagates.grows.free steady.coherent.valid.toRecorded valid.toRecorded is_free
  · rw [numVars_eq]
    exact steady.sized

/-- A full and closed trail solves the base. -/
theorem exists_model {f : Formula} {t : Trail} (wellFormed : base.WellFormed)
    (represented : base.numVars < literalBound) (elaborates : base.Elaborates f)
    (coherent : t.Coherent f) (closed : t.ClosedAt f t.level) (full : t.size = f.numVars) :
    ∃ m, t.values.model = .ok m ∧ base.SolvedBy m := by
  rw [← elaborates.numVars_eq] at represented
  obtain ⟨values, m, ran, made, size_eq, isTrue⟩ := Trail.model_ok coherent.valid represented
  refine ⟨m, ran, Formula.solvedBy_of_ofValues wellFormed made
    (size_eq.trans elaborates.numVars_eq) ?_⟩
  rw [← elaborates.satisfiedBy_iff, Formula.satisfiedBy_iff]
  -- Input or learnt, every clause has a literal that the trail makes true.
  intro place ls _ found
  obtain ⟨l, member, holds⟩ := coherent.exists_holds closed full found
  exact ⟨l, member, isTrue l holds⟩

/-! ### Decisions -/

theorem limitReached_iff {s : Search G} {timeIsUp : Bool} :
    s.limitReached timeIsUp = true ↔ s.options.Exhausted s.counters timeIsUp := by
  simp only [limitReached, Options.Exhausted, Bool.or_eq_true, Option.any_eq_true,
    decide_eq_true_eq, beq_iff_eq, or_assoc, and_comm]

/-- A variable without a value after a decision had none before and is not the decided one. -/
theorem free_of_decided {t : Trail} {n : Nat} {l : Literal} {v : Variable} (valid : t.Valid n)
    (valid_next : (t.openLevel.pushed l .decision).Valid n)
    (is_free : (t.openLevel.pushed l .decision).values.value? v = none) :
    t.values.value? v = none ∧ v ≠ l.var := by
  constructor
  · exact valid.free_of_keeps valid_next.toRecorded
      (fun at_i => Trail.getElem?_pushed_eq_some.2 (.inl at_i)) is_free
  · rintro rfl
    have holds : (t.openLevel.pushed l .decision).Holds l := Trail.holds_pushed.2 (.inr rfl)
    exact (valid_next.value?_eq_none.1 is_free).1 holds

/-- A steady search after a decision. -/
theorem Steady.decided {s : Search G} {branching : Branching G} {phases : Phases G} {l : Literal}
    {counters : Statistics} {decisions : Array Literal} (steady : s.Steady base o)
    (coherent : (s.trail.openLevel.pushed l .decision).Coherent s.formula)
    (covers : branching.Covers s.formula.numVars fun v => s.Free v ∧ v ≠ l.var)
    (sized : phases.Sized s.formula.numVars) :
    ({ s with
      trail := s.trail.openLevel.pushed l .decision, branching := branching, phases := phases
      counters := counters, decisions := decisions } : Search G).Steady base o := by
  refine ⟨steady.elaborates, coherent, steady.clear, steady.indexes, ?_, sized, steady.options_eq⟩
  exact covers.mono fun v _ _ is_free =>
    free_of_decided steady.coherent.valid coherent.valid is_free

/-- The search after a decision. -/
def branched (s : Search G) (l : Literal) (branching : Branching G) (phases : Phases G) :
    Search G :=
  { s with
    trail := s.trail.openLevel.pushed l .decision
    branching := branching
    phases := phases
    counters := { s.counters with decisions := s.counters.decisions + 1 }
    decisions := if s.options.recordDecisions then s.decisions.push l else s.decisions }

/-! ### Any step -/

/-- What a step can do, and what is known of the search that it leads to. -/
inductive Moves (base : Formula) (o : Options) (s : Search G) (timeIsUp : Bool) :
    Control → Search G × Progress → Prop where
  | clashed {q : Propagator} {t : Trail} {g : Formula} {place : Nat}
      (propagates : Propagates s.formula s.trail g t (some place))
      (interrupted : q.Interrupted g t) :
      Moves base o s timeIsUp .propagate
        ({ s with propagator := q, trail := t, formula := g }, .next (.conflict place))
  | settled {q : Propagator} {t : Trail} {g : Formula}
      (propagates : Propagates s.formula s.trail g t none) (ready : q.Ready g t)
      (short : t.size < g.numVars) :
      Moves base o s timeIsUp .propagate
        ({ s with propagator := q, trail := t, formula := g }, .next .decide)
  | solved {q : Propagator} {t : Trail} {g : Formula} {m : Model}
      (propagates : Propagates s.formula s.trail g t none) (solved : base.SolvedBy m) :
      Moves base o s timeIsUp .propagate
        ({ s with propagator := q, trail := t, formula := g }, .done (.sat m))
  | refuted {place : Nat} (no_model : ∀ σ, ¬s.formula.Models σ) :
      Moves base o s timeIsUp (.conflict place)
        (s.analysed ⟨s.analyser.marks, #[], #[]⟩, .done .unsat)
  | resolved {place : Nat} {next : Search G} (resolved : Resolved base o s next) :
      Moves base o s timeIsUp (.conflict place) (next, .next .propagate)
  | halted (reached : s.limitReached timeIsUp = true) :
      Moves base o s timeIsUp .decide (s, .done .unknown)
  | decided {l : Literal} {branching : Branching G} {phases : Phases G}
      (going : s.limitReached timeIsUp = false)
      (steady : (s.branched l branching phases).Steady base o)
      (ready : s.propagator.Ready s.formula (s.trail.openLevel.pushed l .decision))
      (short : s.trail.size < s.formula.numVars) :
      Moves base o s timeIsUp .decide (s.branched l branching phases, .next .propagate)

theorem propagate_moves {s : Search G} {timeIsUp : Bool} (wellFormed : base.WellFormed)
    (represented : base.numVars < literalBound) (invariant : s.Invariant base o .propagate) :
    Moves base o s timeIsUp .propagate s.propagate := by
  obtain ⟨steady, ready⟩ := invariant
  obtain ⟨q, trail, g, conflict, ran, propagates, interrupted, ready_next⟩ :=
    Propagator.propagate_ok steady.coherent ready
  cases conflict with
  | some place =>
    simp only [propagate, ran]
    exact .clashed propagates interrupted
  | none =>
    have coherent := propagates.coherent
    by_cases full : trail.values.allAssigned = true
    · obtain ⟨m, made, solved⟩ := exists_model wellFormed represented
        (steady.elaborates.of_same propagates.same) coherent (propagates.closed rfl)
        (coherent.valid.allAssigned_iff.1 full)
      simp only [propagate, ran, full, if_true, made]
      exact .solved propagates solved
    -- Some variable has no value, so a decision is due.
    · have short : trail.size < g.numVars :=
        Nat.lt_of_le_of_ne coherent.valid.size_le (mt coherent.valid.allAssigned_iff.2 full)
      simp only [propagate, ran, full, Bool.false_eq_true, if_false]
      exact .settled propagates (ready_next rfl) short

theorem resolveConflict_moves {s : Search G} {place : Nat} {timeIsUp : Bool}
    (invariant : s.Invariant base o (.conflict place)) :
    Moves base o s timeIsUp (.conflict place) (s.resolveConflict place) := by
  by_cases root : s.trail.level = 0
  · obtain ⟨steady, _, ls, found, refuted⟩ := invariant
    simp only [resolveConflict, Analyser.analyse_root root, lesson?]
    exact .refuted (steady.coherent.explained.not_models_of_refutes found refuted root)
  · obtain ⟨next, ran, resolved⟩ := resolveConflict_ok invariant (Nat.pos_of_ne_zero root)
    rw [ran]
    exact .resolved resolved

theorem decide_moves [RandomSource G] {s : Search G} {timeIsUp : Bool}
    (represented : base.numVars < literalBound) (invariant : s.Invariant base o .decide) :
    Moves base o s timeIsUp .decide (s.decide timeIsUp) := by
  obtain ⟨steady, ready, done, closed, short⟩ := invariant
  have valid := steady.coherent.valid
  by_cases reached : s.limitReached timeIsUp = true
  · rw [Search.decide, if_pos reached]
    exact .halted reached
  -- Some variable is free, so the selector cannot fail to find one.
  · obtain ⟨u, u_positive, u_declared, unassigned⟩ := valid.exists_free short
    obtain ⟨branching, v, picked, positive, declared, free, covers⟩ :=
      steady.covers.pick valid.slots_size u_positive u_declared unassigned
    have within : v < literalBound := by
      rw [← steady.elaborates.numVars_eq] at represented
      exact Nat.lt_of_le_of_lt declared represented
    have sized := steady.sized.next (v := v)
    cases drawn : s.phases.next v with
    | mk phases polarity =>
      rw [drawn] at sized
      obtain ⟨pushed, coherent⟩ :=
        steady.coherent.decide (l := ⟨v, polarity⟩) closed done positive declared free
      simp only [Search.decide, reached, picked, drawn, branchOn,
        Literal.ofVar_of_lt within, pushed, ok_bind, pure_eq_ok]
      exact .decided (Bool.eq_false_iff.2 reached) (steady.decided coherent covers sized)
        (ready.decide steady.coherent done _) short

/-- The steps of a search that meets the invariant, whatever the clock says. -/
theorem step_moves [RandomSource G] {s : Search G} {control : Control}
    (wellFormed : base.WellFormed) (represented : base.numVars < literalBound) (clock : Nat → Bool)
    (invariant : s.Invariant base o control) :
    Moves base o s (clock s.counters.decisions) control (s.step clock control) := by
  cases control with
  | propagate => exact propagate_moves wellFormed represented invariant
  | conflict place => exact resolveConflict_moves invariant
  | decide => exact decide_moves represented invariant

section

variable {s : Search G} {timeIsUp : Bool} {control : Control} {reached : Search G × Progress}

/-- A step leads nearer to the end, or to a right answer. -/
theorem Moves.leads (moves : Moves base o s timeIsUp control reached)
    (invariant : s.Invariant base o control) : Leads base o (s.toGo control) reached := by
  obtain ⟨steady, at_control⟩ := invariant
  cases moves with
  | @clashed q t g place propagates interrupted =>
    have same := propagates.same
    refine ⟨⟨steady.propagated propagates, interrupted, propagates.refuted rfl⟩,
      toGo_congr same.numVars_eq
        (unlearnt_congr same.numVars_eq same.inputCount_eq same.size_eq rfl) ?_⟩
    simp only [pending]
    omega
  | @settled q t g propagates ready short =>
    have same := propagates.same
    refine ⟨⟨steady.propagated propagates, ready, propagates.done rfl, propagates.closed rfl,
      short⟩, toGo_congr same.numVars_eq
        (unlearnt_congr same.numVars_eq same.inputCount_eq same.size_eq rfl) ?_⟩
    have grown := propagates.grows.size_le
    simp only [pending, same.numVars_eq]
    omega
  | solved _ solved => exact solved
  | refuted no_model => exact steady.elaborates.not_satisfiable no_model
  | resolved resolved =>
    exact ⟨⟨resolved.steady, resolved.ready⟩, toGo_resolved steady resolved⟩
  | halted reached => exact steady.options_eq ▸ (limitReached_iff.1 reached).limited
  | @decided l branching phases _ steady_next ready short =>
    refine ⟨⟨steady_next, ready⟩, toGo_congr rfl rfl ?_⟩
    -- The decision takes one step from what the trail has room for.
    have grown : (s.trail.openLevel.pushed l .decision).size = s.trail.size + 1 :=
      Trail.size_pushed ..
    simp only [pending, branched, grown]
    omega

/-- A step leaves the search steady, also where it ends. -/
theorem Moves.steady (moves : Moves base o s timeIsUp control reached)
    (steady : s.Steady base o) : reached.1.Steady base o := by
  cases moves with
  | clashed propagates => exact steady.propagated propagates
  | settled propagates => exact steady.propagated propagates
  | solved propagates => exact steady.propagated propagates
  | refuted =>
    exact ⟨steady.elaborates, steady.coherent, ⟨steady.clear.size_eq, steady.clear.unmarked⟩,
      steady.indexes, steady.covers, steady.sized, steady.options_eq⟩
  | resolved resolved => exact resolved.steady
  | halted => exact steady
  | decided _ steady_next => exact steady_next

/-- A step keeps the books. -/
theorem Moves.tallied (moves : Moves base o s timeIsUp control reached) (tallied : s.Tallied) :
    reached.1.Tallied := by
  cases moves with
  | clashed propagates | settled propagates | solved propagates =>
    exact tallied.of_eq propagates.same.size_eq propagates.same.inputCount_eq rfl rfl
  | refuted => exact tallied.of_eq rfl rfl rfl rfl
  | resolved resolved => exact resolved.tallied tallied
  | halted => exact tallied
  | decided => exact tallied.of_eq rfl rfl rfl rfl

/-- Without a limit on the learnt clauses a step removes none. -/
theorem Moves.retains (moves : Moves base o s timeIsUp control reached)
    (unlimited : s.database.limit? = none) :
    s.formula.Retains reached.1.formula ∧ reached.1.database.limit? = none := by
  cases moves with
  | clashed propagates | settled propagates | solved propagates =>
    exact ⟨propagates.same.retains, unlimited⟩
  | refuted => exact ⟨.refl _, unlimited⟩
  | resolved resolved =>
    refine ⟨resolved.retains unlimited, ?_⟩
    rcases resolved.outcome with ⟨_, limit_eq⟩ | ⟨_, _, _, limited, _⟩
    · exact limit_eq.trans unlimited
    · rw [unlimited] at limited
      cases limited
  | halted => exact ⟨.refl _, unlimited⟩
  | decided => exact ⟨.refl _, unlimited⟩

end

end Search

end ClauseLearning
