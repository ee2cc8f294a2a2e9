import ClauseLearning.Proofs.Search.Growth

/-!
# Runs with different budgets

The limits on conflicts and decisions are looked at in one place only: when a decision is due. A
search that does not stop there goes on as it would with higher limits. So a run with higher limits
replays a run with lower ones step by step, up to where the latter gives up.

Main statement: with higher limits an answer, the statistics and the decisions stay the same. A run
that gives up has made a beginning of the decisions of the longer run, none of its counters is
greater, and without reductions all of its learnt clauses are learnt by the longer run too. It gives
up only when propagation has come to an end without a conflict and left some variable unassigned.
-/

namespace ClauseLearning

theorem map_of_bind {α β γ ε : Type} (x : Except ε α) (next : α → Except ε β) (g : β → γ) :
    (x >>= next).map g = x >>= fun a => (next a).map g := by
  cases x <;> rfl

theorem bind_of_map {α β γ ε : Type} (x : Except ε α) (g : α → β) (next : β → Except ε γ) :
    (x.map g >>= next) = x >>= fun a => next (g a) := by
  cases x <;> rfl

/-- The options agree but for the limits on conflicts and decisions, and those of the second are no
lower. An absent limit is higher than every number. -/
structure Options.Within (o p : Options) : Prop where
  same : p = { o with maxConflicts := p.maxConflicts, maxDecisions := p.maxDecisions }
  conflicts : ∀ {n : Nat}, p.maxConflicts = some n → ∃ m ≤ n, o.maxConflicts = some m
  decisions : ∀ {n : Nat}, p.maxDecisions = some n → ∃ m ≤ n, o.maxDecisions = some m

namespace Formula

/-- Every learnt clause of `f` is, as a set of literals, a learnt clause of `g`. -/
def LearntIn (f g : Formula) : Prop :=
  ∀ e ∈ f.learntClauses, ∃ d ∈ g.learntClauses, {l | l ∈ d.2.literals} = {l | l ∈ e.2.literals}

theorem Retains.learntIn {f g : Formula} (retains : f.Retains g) (wellFormed : f.WellFormed)
    (wellFormed_g : g.WellFormed) (inputCount_eq : g.inputCount = f.inputCount) :
    f.LearntIn g := by
  rintro ⟨place, c⟩ member
  obtain ⟨learnt, at_place⟩ := (mem_learntClauses wellFormed).1 member
  obtain ⟨ms, found, perm⟩ := retains (literalsAt_of_clause at_place)
  obtain ⟨d, at_g, rfl⟩ := literalsAt_eq_some.1 found
  exact ⟨(place, d), (mem_learntClauses wellFormed_g).2 ⟨inputCount_eq ▸ learnt, at_g⟩,
    Set.ext fun _ => perm.mem_iff.symm⟩

end Formula

namespace Search

variable {G : Type}

/-- The search with other options; the strategies stay as they are. -/
def withOptions (p : Options) (s : Search G) : Search G :=
  { s with options := p }

/-- Strategies do not depend on limits. -/
theorem build_withOptions [RandomSource G] {f : Formula} {o p : Options} {kinds : Strategies}
    {s : Search G} (within : o.Within p) (built : build f o kinds = .ok s) :
    build f p kinds = .ok (s.withOptions p) := by
  obtain ⟨propagator, made, rfl⟩ : ∃ propagator, Propagator.make kinds.propagator f =
      .ok propagator ∧ s = _ := by
    obtain ⟨propagator, made, ended⟩ := bind_eq_ok.1 built
    exact ⟨propagator, made, (Except.ok.inj ended).symm⟩
  rw [build, made, ok_bind, within.same]
  rfl

theorem Assembled.withOptions [RandomSource G] {f : Formula} {o : Options} {s : Search G}
    (assembled : s.Assembled f o) (p : Options) : (s.withOptions p).Assembled f p := by
  cases assembled with
  | ofParts kinds _ _ _ _ made => exact .ofParts kinds _ _ _ _ made

/-! ### What limits have no part in -/

section

variable (p : Options) (s : Search G) (c : Clause) (level place : Nat)

theorem reward_withOptions :
    (s.withOptions p).reward = s.reward.map (withOptions p) := by
  simp only [reward, map_of_bind, pure_eq_ok, map_ok]
  rfl

theorem backtrack_withOptions :
    (s.withOptions p).backtrack level = (s.backtrack level).map (withOptions p) := by
  simp only [backtrack, map_of_bind, pure_eq_ok, map_ok]
  rfl

theorem backjump_withOptions :
    (s.withOptions p).backjump level = (s.backjump level).map (withOptions p) :=
  backtrack_withOptions p { s with counters := s.counters.jumped (s.trail.level - level) } level

theorem learn_withOptions :
    (s.withOptions p).learn c level = (s.learn c level).map (withOptions p) := by
  simp only [learn, map_of_bind, apply_ite (Except.map (withOptions p)), pure_eq_ok, map_ok]
  rfl

theorem maintain_withOptions :
    (s.withOptions p).maintain = s.maintain.map (withOptions p) := by
  simp only [maintain, map_of_bind, apply_ite (Except.map (withOptions p)), pure_eq_ok, map_ok]
  rfl

theorem considerRestart_withOptions :
    (s.withOptions p).considerRestart = s.considerRestart.map (withOptions p) := by
  simp only [considerRestart, apply_ite (Except.map (withOptions p)), map_ok,
    ← backtrack_withOptions]
  rfl

theorem conclude_withOptions :
    (s.withOptions p).conclude c level = (s.conclude c level).map (withOptions p) := by
  simp only [conclude, reward_withOptions, bind_of_map, backjump_withOptions, learn_withOptions,
    maintain_withOptions, considerRestart_withOptions, map_of_bind]

theorem resolveConflict_withOptions :
    (s.withOptions p).resolveConflict place =
      Prod.map (withOptions p) id (s.resolveConflict place) := by
  unfold resolveConflict
  simp only [withOptions]
  split
  next => rfl
  next => rfl
  next analyser conflict _ =>
    split
    next => rfl
    next c level _ =>
      have concluded := conclude_withOptions p (s.analysed analyser) c level
      simp only [withOptions, analysed] at concluded
      rw [concluded]
      cases conclude _ c level <;> rfl

theorem propagate_withOptions :
    (s.withOptions p).propagate = Prod.map (withOptions p) id s.propagate := by
  unfold propagate
  rw [show (s.withOptions p).propagator = s.propagator from rfl,
    show (s.withOptions p).trail = s.trail from rfl,
    show (s.withOptions p).formula = s.formula from rfl]
  cases s.propagator.propagate s.trail s.formula with
  | error fault => rfl
  | ok result =>
    obtain ⟨q, trail, g, conflict⟩ := result
    cases conflict with
    | some place => rfl
    | none =>
      simp only [apply_ite (Prod.map (withOptions p) id)]
      cases trail.values.model <;> rfl

theorem start_withOptions : (s.withOptions p).start = Prod.map (withOptions p) id s.start := by
  unfold start
  simp only [apply_ite (Prod.map (withOptions p) id)]
  rw [show (s.withOptions p).formula = s.formula from rfl,
    show (s.withOptions p).trail = s.trail from rfl]
  cases Model.ofValues (Array.replicate s.formula.numVars true) <;>
    cases assertUnits 0 s.formula.inputClauses s.trail with
    | error fault => rfl
    | ok result => rcases result with ⟨trail, consistent⟩; cases consistent <;> rfl

end

theorem finish_withOptions (p : Options) (reached : Search G × Progress) :
    finish (Prod.map (withOptions p) id reached) =
      Prod.map (withOptions p) id (finish reached) := by
  cases reached with
  | mk s progress => cases progress <;> rfl

/-! ### Limits -/

section

variable {clock clock' : Nat → Bool} {p : Options} {s last : Search G} {control : Control}

/-- A limit that a search reaches with the higher limits has been reached with the lower ones. -/
theorem limitReached_withOptions {timeIsUp timeIsUp' : Bool} (within : s.options.Within p)
    (timeless : s.options.timeLimit = none) (going : s.limitReached timeIsUp = false) :
    (s.withOptions p).limitReached timeIsUp' = false := by
  rw [← Bool.not_eq_true, limitReached_iff] at going ⊢
  rintro (⟨n, le, limit⟩ | ⟨n, le, limit⟩ | ⟨n, limit, _⟩)
  · obtain ⟨m, below, lower⟩ := within.conflicts limit
    exact going (.inl ⟨m, Nat.le_trans below le, lower⟩)
  · obtain ⟨m, below, lower⟩ := within.decisions limit
    exact going (.inr (.inl ⟨m, Nat.le_trans below le, lower⟩))
  · have same : p.timeLimit = s.options.timeLimit := by rw [within.same]
    have unlimited : (s.withOptions p).options.timeLimit = none := same.trans timeless
    rw [unlimited] at limit
    cases limit

theorem decide_withOptions [RandomSource G] {timeIsUp timeIsUp' : Bool}
    (within : s.options.Within p) (timeless : s.options.timeLimit = none)
    (going : s.limitReached timeIsUp = false) :
    (s.withOptions p).decide timeIsUp' = Prod.map (withOptions p) id (s.decide timeIsUp) := by
  have going' : (s.withOptions p).limitReached timeIsUp' = false :=
    limitReached_withOptions within timeless going
  have recorded : p.recordDecisions = s.options.recordDecisions := by rw [within.same]
  unfold decide
  rw [going, going']
  simp only [Bool.false_eq_true, if_false]
  rw [show (s.withOptions p).branching.pick (s.withOptions p).trail.values =
    s.branching.pick s.trail.values from rfl]
  cases s.branching.pick s.trail.values with
  | error fault => rfl
  | ok result =>
    obtain ⟨branching, picked⟩ := result
    cases picked with
    | none => rfl
    | some v =>
      simp only [branchOn, withOptions, recorded]
      cases s.trail.pushDecision (Literal.ofVar v (s.phases.next v).2) <;> rfl

/-! ### Steps -/

/-- A search gives up only when a decision is due and a limit has been reached, and it stays as it
is. -/
theorem step_unknown [RandomSource G] (ended : s.step clock control = (last, .done .unknown)) :
    control = .decide ∧ last = s ∧ s.limitReached (clock s.counters.decisions) = true := by
  cases step_ends ended with
  | halted reached => exact ⟨rfl, rfl, reached⟩

theorem start_ne_unknown (s : Search G) : s.start.2 ≠ .done .unknown := by
  have begins := s.start_begins
  generalize s.start = reached at begins ⊢
  cases begins <;> simp

/-- A step that does not give up is the same step with higher limits. -/
theorem step_withOptions [RandomSource G] (within : s.options.Within p)
    (timeless : s.options.timeLimit = none) (going : (s.step clock control).2 ≠ .done .unknown) :
    (s.withOptions p).step clock' control =
      Prod.map (withOptions p) id (s.step clock control) := by
  cases control with
  | propagate => exact propagate_withOptions p s
  | conflict place => exact resolveConflict_withOptions p s place
  | decide =>
    refine decide_withOptions within timeless ?_
    rw [← Bool.not_eq_true]
    intro reached
    simp [step, decide, reached] at going

end

/-! ### Runs -/

theorem finish_unknown {reached : Search G × Progress} :
    (finish reached).2 = .verdict .unknown ↔ reached.2 = .done .unknown := by
  cases reached with
  | mk s progress => cases progress <;> simp [finish]

theorem finish_formula (reached : Search G × Progress) :
    (finish reached).1.formula = reached.1.formula := by
  cases reached with
  | mk s progress => cases progress <;> rfl

section

variable [RandomSource G] {clock clock' : Nat → Bool} {p : Options}

/-- A run that does not give up is replayed to its end. -/
theorem after_withOptions (n : Nat) :
    ∀ (control : Control) (s : Search G), s.options.Within p → s.options.timeLimit = none →
      (after clock n control s).2 ≠ .done .unknown →
      after clock' n control (s.withOptions p) =
        Prod.map (withOptions p) id (after clock n control s) := by
  induction n with
  | zero => exact fun control s _ _ _ => rfl
  | succ n ih =>
    intro control s within timeless going
    have options_eq := (s.step_grows clock control).options_eq
    have replayed := @step_withOptions G clock clock' p s control _ within timeless
    rw [after] at going ⊢
    rw [after]
    cases stepped : s.step clock control with
    | mk next progress =>
      rw [stepped] at going options_eq replayed
      cases progress with
      | next after =>
        rw [replayed (by simp)]
        exact ih after next (options_eq ▸ within) (options_eq ▸ timeless) going
      | done verdict =>
        rw [replayed going]
        rfl
      | failed fault =>
        rw [replayed going]
        rfl

/-- A run that gives up is replayed up to the decision that it does not make. -/
theorem after_unknown (n : Nat) :
    ∀ (control : Control) (s last : Search G), s.options.Within p → s.options.timeLimit = none →
      after clock n control s = (last, .done .unknown) →
      ∃ k ≤ n, after clock' k control (s.withOptions p) =
        (last.withOptions p, .next .decide) := by
  induction n with
  | zero =>
    intro control s last _ _ ended
    cases ended
  | succ n ih =>
    intro control s last within timeless ended
    have options_eq := (s.step_grows clock control).options_eq
    have replayed := @step_withOptions G clock clock' p s control _ within timeless
    rw [after] at ended
    cases stepped : s.step clock control with
    | mk next progress =>
      rw [stepped] at ended options_eq replayed
      cases progress with
      | next after =>
        obtain ⟨k, le, ran⟩ :=
          ih after next last (options_eq ▸ within) (options_eq ▸ timeless) ended
        refine ⟨k + 1, Nat.succ_le_succ le, ?_⟩
        rw [Search.after, replayed (by simp)]
        exact ran
      | done verdict =>
        cases ended
        obtain ⟨rfl, rfl, _⟩ := step_unknown stepped
        exact ⟨0, Nat.zero_le _, rfl⟩
      | failed fault => cases ended

variable {s : Search G}

/-- A search that finds an answer finds it with higher limits in the same way. -/
theorem solveAgainst_withOptions (fresh : s.verdict = none) (within : s.options.Within p)
    (timeless : s.options.timeLimit = none)
    (known : (s.solveAgainst clock).2 ≠ .verdict .unknown) :
    (s.withOptions p).solveAgainst clock' =
      Prod.map (withOptions p) id (s.solveAgainst clock) := by
  have fresh' : (s.withOptions p).verdict = none := fresh
  have options_eq := s.start_grows.options_eq
  rw [solveAgainst_eq_after clock fresh] at known ⊢
  rw [solveAgainst_eq_after clock' fresh', start_withOptions, ← finish_withOptions]
  rw [ne_eq, finish_unknown] at known
  cases started : s.start with
  | mk first progress =>
    rw [started] at known options_eq
    cases progress with
    | next control =>
      have replayed := @after_withOptions G _ clock clock' p _ control first (options_eq ▸ within)
        (options_eq ▸ timeless) known
      exact congrArg finish replayed
    | done verdict => rfl
    | failed fault => rfl

/-- A search that gives up does so when a decision is due, and some steps after its start. -/
theorem solveAgainst_unknown (fresh : s.verdict = none)
    (unknown : (s.solveAgainst clock).2 = .verdict .unknown) :
    ∃ first control last, s.start = (first, .next control) ∧
      after clock (2 ^ roundBound s.formula.numVars - 1) control first = (last, .done .unknown) ∧
      (s.solveAgainst clock).1 = { last with verdict := some .unknown } ∧
      Reachable clock s .decide last ∧
      last.limitReached (clock last.counters.decisions) = true := by
  rw [solveAgainst_eq_after clock fresh] at unknown ⊢
  rw [finish_unknown] at unknown
  have not_at_start := s.start_ne_unknown
  cases started : s.start with
  | mk first progress =>
    rw [started] at unknown not_at_start
    cases progress with
    | next control =>
      have reachable : Reachable clock s control first := .start started
      have arrives := reachable.arrives (2 ^ roundBound s.formula.numVars - 1)
      simp only [andThen] at unknown ⊢
      cases ran : after clock (2 ^ roundBound s.formula.numVars - 1) control first with
      | mk last progress =>
        rw [ran] at unknown arrives
        cases unknown
        obtain ⟨_, mid, reachable_mid, stepped⟩ := arrives
        obtain ⟨rfl, rfl, reached⟩ := step_unknown stepped
        exact ⟨first, control, last, rfl, ran, rfl, reachable_mid, reached⟩
    | done verdict => exact absurd unknown not_at_start
    | failed fault => cases unknown

/-- With higher limits a search goes on from where it would have given up. -/
theorem solveAgainst_resumes (fresh : s.verdict = none) (within : s.options.Within p)
    (timeless : s.options.timeLimit = none)
    (unknown : (s.solveAgainst clock).2 = .verdict .unknown) :
    ∃ (last : Search G) (n : Nat),
      (s.solveAgainst clock).1 = { last with verdict := some .unknown } ∧
      Reachable clock' (s.withOptions p) .decide (last.withOptions p) ∧
      (s.withOptions p).solveAgainst clock' =
        finish (after clock' n .decide (last.withOptions p)) := by
  obtain ⟨first, control, last, started, ran, ended, _, _⟩ := solveAgainst_unknown fresh unknown
  have options_eq : first.options = s.options := by
    have grows := s.start_grows
    rw [started] at grows
    exact grows.options_eq
  obtain ⟨k, le, replayed⟩ := @after_unknown G _ clock clock' p _ control first last
    (options_eq ▸ within) (options_eq ▸ timeless) ran
  have started' : (s.withOptions p).start = (first.withOptions p, .next control) := by
    rw [start_withOptions, started]
    rfl
  have reachable : Reachable clock' (s.withOptions p) control (first.withOptions p) :=
    .start started'
  have arrives := reachable.arrives k
  rw [replayed] at arrives
  have fresh' : (s.withOptions p).verdict = none := fresh
  refine ⟨last, 2 ^ roundBound s.formula.numVars - 1 - k, ended, arrives, ?_⟩
  rw [solveAgainst_eq_after clock' fresh', started']
  -- The first `k` of the steps have been made.
  rw [show (s.withOptions p).formula.numVars = s.formula.numVars from rfl,
    show 2 ^ roundBound s.formula.numVars - 1 = k + (2 ^ roundBound s.formula.numVars - 1 - k) by
      omega, after_add]
  simp only [andThen, replayed, Nat.add_sub_cancel_left]

end

/-! ### Learnt clauses -/

/-- What becomes of a search whose database is not reduced: it keeps its clauses. -/
structure Accrues (base : Formula) (o : Options) (s next : Search G) : Prop where
  steady : next.Steady base o
  retains : s.formula.Retains next.formula
  unlimited : next.database.limit? = none

theorem Moves.accrues {base : Formula} {o : Options} {s mid : Search G} {timeIsUp : Bool}
    {control : Control} {reached : Search G × Progress}
    (moves : Moves base o mid timeIsUp control reached) (accrues : Accrues base o s mid) :
    Accrues base o s reached.1 := by
  obtain ⟨more, unlimited⟩ := moves.retains accrues.unlimited
  exact ⟨moves.steady accrues.steady, accrues.retains.trans more, unlimited⟩

section

variable [RandomSource G] {clock : Nat → Bool} {f : Formula} {o : Options} {s mid : Search G}
  {control : Control} (assembled : s.Assembled f o) (constructed : f.Constructed)
  (represented : f.numVars < literalBound)

include assembled constructed represented

/-- A database that is not reduced stays so. -/
theorem Reachable.unlimited (unreduced : s.database.reduction = none)
    (reachable : Reachable clock s control mid) : mid.database.limit? = none := by
  refine Reachable.holds (P := fun next => next.database.limit? = none) assembled constructed
    represented ?_ ?_ reachable
  · obtain ⟨trail, started⟩ := s.start_fst
    rw [started]
    simp [Database.limit?, unreduced]
  · intro control next invariant unlimited
    exact ((step_moves constructed.wellFormed.1 represented clock invariant).retains unlimited).2

/-- Without reductions a run keeps what it has learnt. -/
theorem Reachable.learntIn_after (unreduced : s.database.reduction = none)
    (reachable : Reachable clock s control mid) (n : Nat) :
    mid.formula.LearntIn (after clock n control mid).1.formula := by
  have invariant := reachable.invariant assembled constructed represented
  have unlimited := reachable.unlimited assembled constructed represented unreduced
  have accrues : Accrues f o mid (after clock n control mid).1 :=
    after_holds constructed.wellFormed.1 represented
      (fun invariant => (step_moves constructed.wellFormed.1 represented clock invariant).accrues)
      n control mid invariant ⟨invariant.steady, .refl _, unlimited⟩
  exact accrues.retains.learntIn invariant.steady.coherent.wellFormed
    accrues.steady.coherent.wellFormed
    (accrues.steady.elaborates.inputCount_eq.trans
      invariant.steady.elaborates.inputCount_eq.symm)

end

/-! ### The number of decisions -/

/-- No more decisions have been made than the options allow. -/
structure Frugal (o : Options) (s : Search G) : Prop where
  options_eq : s.options = o
  decisions_le : ∀ {n : Nat}, o.maxDecisions = some n → s.counters.decisions ≤ n

section

variable {base : Formula} {o : Options} {s next : Search G}

theorem Serves.frugal (serves : s.Serves next) (frugal : s.Frugal o) : next.Frugal o :=
  ⟨serves.options_eq.trans frugal.options_eq, serves.decided_eq.symm ▸ frugal.decisions_le⟩

theorem Moves.frugal {timeIsUp : Bool} {reached : Search G × Progress}
    (moves : Moves base o s timeIsUp .decide reached) (frugal : s.Frugal o) :
    reached.1.Frugal o := by
  cases moves with
  | halted => exact frugal
  | decided going =>
    refine ⟨frugal.options_eq, fun {n} limit => ?_⟩
    -- The limit was not reached, so there was room for one more decision.
    rw [← Bool.not_eq_true, limitReached_iff, frugal.options_eq] at going
    by_contra beyond
    exact going (.inr (.inl ⟨n, Nat.le_of_lt_succ (Nat.not_le.1 beyond), limit⟩))

theorem step_frugal [RandomSource G] {control : Control} (wellFormed : base.WellFormed)
    (represented : base.numVars < literalBound) (clock : Nat → Bool)
    (invariant : s.Invariant base o control) (frugal : s.Frugal o) :
    (s.step clock control).1.Frugal o := by
  cases control with
  | propagate => exact s.propagate_serves.frugal frugal
  | conflict place => exact (s.resolveConflict_serves place).frugal frugal
  | decide => exact (step_moves wellFormed represented clock invariant).frugal frugal

theorem Assembled.frugal [RandomSource G] (assembled : s.Assembled base o) :
    s.start.1.Frugal o := by
  obtain ⟨trail, started⟩ := s.start_fst
  rw [started]
  cases assembled
  exact ⟨rfl, fun _ => Nat.zero_le _⟩

end

/-! ### Giving up -/

/-- Propagation has come to an end without a conflict, some variable has no value, and a limit has
been reached. -/
structure GaveUp (clock : Nat → Bool) (o : Options) (s : Search G) : Prop where
  propagated : s.trail.head = s.trail.size
  undecided : ∀ c ∈ s.formula.clauses,
    (∃ l ∈ c.literals, s.trail.values.literalValue? l = some true) ∨
      ∃ l ∈ c.literals, ∃ q ∈ c.literals, q ≠ l ∧ s.trail.values.literalValue? l = none ∧
        s.trail.values.literalValue? q = none
  free : ∃ v, 0 < v ∧ v ≤ s.formula.numVars ∧ s.trail.values.value? v = none
  exhausted : o.Exhausted s.counters (clock s.counters.decisions)

theorem Invariant.gaveUp {base : Formula} {o : Options} {s : Search G} {clock : Nat → Bool}
    (invariant : s.Invariant base o .decide)
    (reached : s.limitReached (clock s.counters.decisions) = true) : s.GaveUp clock o := by
  obtain ⟨steady, _, done, closed, short⟩ := invariant
  have valid := steady.coherent.valid
  refine ⟨done, fun c member => ?_, valid.exists_free short,
    steady.options_eq ▸ limitReached_iff.1 reached⟩
  obtain ⟨place, at_place⟩ := Array.mem_iff_getElem?.1 member
  have found := Formula.literalsAt_of_clause at_place
  simp only [valid.literalValue?_eq_true, valid.literalValue?_eq_none]
  exact steady.coherent.true_or_two_free closed found

/-! ### Two runs -/

/-- Take two runs of a search without a time limit, the second with higher limits on conflicts and
decisions. If the first finds an answer, the second finds the same one with the same statistics and
decisions. If the first gives up, it has made a beginning of the decisions of the second, with no
greater counters, and without reductions it has learnt nothing that the second has not. Whatever the
limits are, a run makes no more decisions than it may, and it gives up only when propagation has
come to an end without a conflict, some variable has no value and a limit has been reached. -/
theorem replays_with_higher_limits [RandomSource G] (clock clock' : Nat → Bool) {f : Formula}
    {o : Options} {s : Search G} (assembled : s.Assembled f o) (constructed : f.Constructed)
    (represented : f.numVars < literalBound) :
    (∀ {p : Options}, o.timeLimit = none → o.Within p →
      (∀ {kinds : Strategies}, build f o kinds = .ok s → build f p kinds = .ok (s.withOptions p)) ∧
      ((s.solveAgainst clock).2 ≠ .verdict .unknown →
        ((s.withOptions p).solveAgainst clock').2 = (s.solveAgainst clock).2 ∧
        ((s.withOptions p).solveAgainst clock').1.statistics =
          (s.solveAgainst clock).1.statistics ∧
        ((s.withOptions p).solveAgainst clock').1.decisions =
          (s.solveAgainst clock).1.decisions) ∧
      ((s.solveAgainst clock).2 = .verdict .unknown →
        (s.solveAgainst clock).1.decisions.toList <+:
          ((s.withOptions p).solveAgainst clock').1.decisions.toList ∧
        (s.solveAgainst clock).1.statistics ≤
          ((s.withOptions p).solveAgainst clock').1.statistics ∧
        (s.database.reduction = none → (s.solveAgainst clock).1.formula.LearntIn
          ((s.withOptions p).solveAgainst clock').1.formula))) ∧
    (∀ {n : Nat}, o.maxDecisions = some n →
      (∀ {control : Control} {next : Search G}, Reachable clock s control next →
        next.counters.decisions ≤ n) ∧
      (s.solveAgainst clock).1.statistics.decisions ≤ n) ∧
    ((s.solveAgainst clock).2 = .verdict .unknown → (s.solveAgainst clock).1.GaveUp clock o) := by
  have fresh := assembled.fresh
  have options_eq := assembled.options_eq
  have steps : ∀ {control : Control} {mid : Search G}, mid.Invariant f o control → mid.Frugal o →
      (mid.step clock control).1.Frugal o :=
    step_frugal constructed.wellFormed.1 represented clock
  refine ⟨fun {p} timeless within => ⟨build_withOptions within, fun known => ?_, fun unknown => ?_⟩,
    fun {n} limit => ⟨fun reachable => ?_, ?_⟩, fun unknown => ?_⟩
  · rw [@solveAgainst_withOptions G _ clock clock' p s fresh (options_eq ▸ within)
      (options_eq ▸ timeless) known]
    exact ⟨rfl, rfl, rfl⟩
  · obtain ⟨last, n, ended, reachable, resumed⟩ := @solveAgainst_resumes G _ clock clock' p s fresh
      (options_eq ▸ within) (options_eq ▸ timeless) unknown
    have grows := (after_grows clock' n .decide (last.withOptions p)).trans (finish_grows _)
    rw [ended, resumed]
    refine ⟨grows.decisions_prefix, grows.statistics_le, fun unreduced => ?_⟩
    rw [finish_formula]
    exact reachable.learntIn_after (assembled.withOptions p) constructed represented unreduced n
  · exact (reachable.holds assembled constructed represented assembled.frugal steps).decisions_le
      limit
  · have frugal := assembled.holds_at_end constructed represented assembled.frugal steps
      fun frugal => ⟨frugal.options_eq, frugal.decisions_le⟩
    exact frugal.decisions_le limit
  · obtain ⟨_, _, last, _, _, ended, reachable, reached⟩ := solveAgainst_unknown fresh unknown
    have gaveUp := (reachable.invariant assembled constructed represented).gaveUp reached
    rw [ended]
    exact ⟨gaveUp.propagated, gaveUp.undecided, gaveUp.free, gaveUp.exhausted⟩

/-- With one decision allowed the search gives up; without a limit it makes a second decision. -/
theorem replays_with_higher_limits_decided :
    ∃ f, Formula.withVars 3 [[1, 2], [-1, -2]] = .ok f ∧
      ∃ s : Search,
        build f { Options.standard with maxDecisions := some 1, recordDecisions := true }
          Strategies.plain = .ok s ∧
      ∃ t : Search, build f { Options.standard with maxDecisions := none, recordDecisions := true }
        Strategies.plain = .ok t ∧
      s.solve.2 = .verdict .unknown ∧ t.solve.2 ≠ .verdict .unknown ∧
      s.solve.1.decisions.size = 1 ∧ t.solve.1.decisions.size = 2 ∧
      s.solve.1.decisions.toList <+: t.solve.1.decisions.toList ∧
      s.solve.1.statistics ≤ t.solve.1.statistics ∧
      s.solve.1.formula.LearntIn t.solve.1.formula ∧
      s.solve.1.statistics.decisions ≤ 1 ∧
      s.solve.1.GaveUp (fun _ => false)
        { Options.standard with maxDecisions := some 1, recordDecisions := true } := by
  have runs : ∃ f, Formula.withVars 3 [[1, 2], [-1, -2]] = .ok f ∧ f.numVars < literalBound ∧
      ∃ s : Search,
        build f { Options.standard with maxDecisions := some 1, recordDecisions := true }
          Strategies.plain = .ok s ∧ s.database.reduction = none ∧
      s.solve.2 = .verdict .unknown ∧ s.solve.1.decisions.size = 1 ∧
      ∃ t : Search, build f { Options.standard with maxDecisions := none, recordDecisions := true }
        Strategies.plain = .ok t ∧
      t.solve.2 ≠ .verdict .unknown ∧ t.solve.1.decisions.size = 2 :=
    ⟨_, rfl, by decide, _, rfl, rfl, by decide +kernel, by decide +kernel, _, rfl,
      by decide +kernel, by decide +kernel⟩
  obtain ⟨f, made, represented, s, built, unreduced, unknown, once, t, built', known, twice⟩ := runs
  have within : Options.Within
      { Options.standard with maxDecisions := some 1, recordDecisions := true }
      { Options.standard with maxDecisions := none, recordDecisions := true } :=
    ⟨rfl, fun {n} limit => ⟨n, Nat.le_refl n, limit⟩, fun limit => by cases limit⟩
  have replays := replays_with_higher_limits (fun _ => false) (fun _ => false)
    (assembled_of_build built) (Formula.Constructed.withVars made) represented
  obtain ⟨rebuilt, _, gives_up⟩ := replays.1 rfl within
  cases (rebuilt built).symm.trans built'
  obtain ⟨decisions, statistics, learnt⟩ := gives_up unknown
  exact ⟨f, made, s, built, _, built', unknown, known, once, twice, decisions, statistics,
    learnt unreduced, (replays.2.1 rfl).2, replays.2.2 unknown⟩

end Search

end ClauseLearning
