import ClauseLearning.Proofs.Search.Growth

/-!
# The moments of a run

Between two steps a search is about to propagate, to deal with a conflict or to decide. Dealing with
a conflict is itself done in stages: clauses and variables are rewarded, the trail goes back, the
learnt clause is stored, the database takes note of the conflict and may be reduced, and the search
may restart. A moment of a run is a point between two steps or between two stages.

Main statements: at every moment the search is steady, and its propagator is ready at all moments
but those from a conflict up to going back. At every moment the propagator is of the kind that the
search was assembled with.
-/

namespace ClauseLearning

namespace Search

variable {G : Type}

/-! ### Stages -/

/-- What has been done last on the way from a conflict to the next propagation. -/
inductive Stage where
  | rewarded
  | jumped
  | learnt
  | noted
  | maintained
  | restarted
deriving DecidableEq, Repr

/-- The states of a search that concludes from a conflict to the clause `c`, stage by stage. -/
inductive Concluding (s : Search G) (c : Clause) (level : Nat) : Stage → Search G → Prop where
  | rewarded {next : Search G} (ran : s.reward = .ok next) : Concluding s c level .rewarded next
  | jumped {mid next : Search G} (before : Concluding s c level .rewarded mid)
      (ran : mid.backjump level = .ok next) : Concluding s c level .jumped next
  | learnt {mid next : Search G} (before : Concluding s c level .jumped mid)
      (ran : mid.learn c level = .ok next) : Concluding s c level .learnt next
  | noted {mid : Search G} (before : Concluding s c level .learnt mid) :
      Concluding s c level .noted mid.noted
  | maintained {mid next : Search G} (before : Concluding s c level .learnt mid)
      (ran : mid.maintain = .ok next) : Concluding s c level .maintained next
  | restarted {mid next : Search G} (before : Concluding s c level .maintained mid)
      (ran : mid.considerRestart = .ok next) : Concluding s c level .restarted next

/-- The last stage is where the search goes on. -/
theorem Concluding.of_conclude {s next : Search G} {c : Clause} {level : Nat}
    (ran : s.conclude c level = .ok next) : Concluding s c level .restarted next := by
  obtain ⟨_, rewarded, ran⟩ := bind_eq_ok.1 ran
  obtain ⟨_, jumped, ran⟩ := bind_eq_ok.1 ran
  obtain ⟨_, learnt, ran⟩ := bind_eq_ok.1 ran
  obtain ⟨_, maintained, restarted⟩ := bind_eq_ok.1 ran
  exact .restarted (.maintained (.learnt (.jumped (.rewarded rewarded) jumped) learnt) maintained)
    restarted

/-- What is known of a search at a stage. -/
def Stage.Known (base : Formula) (o : Options) (a : Literal) (others : List Literal) (level : Nat)
    (s : Search G) : Stage → Prop
  | .rewarded => s.Steady base o ∧ s.propagator.Interrupted s.formula s.trail ∧
      Lesson s.formula s.trail a others level
  | .jumped => Poised base o a others s
  | _ => s.Steady base o ∧ s.propagator.Ready s.formula s.trail

section

variable {base : Formula} {o : Options} {s next : Search G} {c : Clause} {a : Literal}
  {others : List Literal} {level : Nat} {stage : Stage}

theorem Concluding.known (concluding : Concluding s c level stage next)
    (taught : Taught base o c level a others s) : stage.Known base o a others level next := by
  obtain ⟨steady, interrupted, finished, lesson, shape, present⟩ := taught
  -- Each stage is known to succeed, so it has led to the state of which something is known.
  induction concluding with
  | rewarded ran =>
    obtain ⟨formula, branching, rewarded, rescored, steady_next⟩ :=
      reward_ok steady finished.resolved_lt (finished.involved_inside steady.coherent.valid)
    cases rewarded.symm.trans ran
    exact ⟨steady_next, rescored.interrupted interrupted, lesson.of_rescored rescored⟩
  | jumped _ ran ih =>
    obtain ⟨steady_mid, interrupted_mid, lesson_mid⟩ := ih
    obtain ⟨_, jumped, poised, _⟩ := backjump_ok steady_mid interrupted_mid lesson_mid
    cases jumped.symm.trans ran
    exact poised
  | learnt _ ran ih =>
    obtain ⟨_, learnt, known⟩ := @learn_ok G base o _ c a others level ih shape present
    cases learnt.symm.trans ran
    exact ⟨known.steady, known.ready⟩
  | noted _ ih =>
    obtain ⟨steady_next, ready, _⟩ := noted_ok ih.1 ih.2
    exact ⟨steady_next, ready⟩
  | maintained _ ran ih =>
    obtain ⟨_, maintained, steady_next, ready, _⟩ := maintain_ok ih.1 ih.2
    cases maintained.symm.trans ran
    exact ⟨steady_next, ready⟩
  | restarted _ ran ih =>
    obtain ⟨_, restarted, steady_next, ready, _⟩ := considerRestart_ok ih.1 ih.2
    cases restarted.symm.trans ran
    exact ⟨steady_next, ready⟩

theorem Stage.Known.steady (known : stage.Known base o a others level next) :
    next.Steady base o := by
  cases stage with
  | rewarded => exact known.1
  | jumped => exact Poised.steady known
  | learnt | noted | maintained | restarted => exact known.1

theorem Stage.Known.ready (known : stage.Known base o a others level next)
    (back : stage ≠ .rewarded) : next.propagator.Ready next.formula next.trail := by
  cases stage with
  | rewarded => exact absurd rfl back
  | jumped => exact Poised.ready known
  | learnt | noted | maintained | restarted => exact known.2

theorem Concluding.serves (concluding : Concluding s c level stage next) : s.Serves next := by
  induction concluding with
  | rewarded ran => exact reward_serves ran
  | jumped _ ran ih => exact ih.trans (backjump_serves ran)
  | learnt _ ran ih => exact ih.trans (learn_serves ran)
  | @noted mid _ ih => exact ih.trans mid.noted_serves
  | maintained _ ran ih => exact ih.trans (maintain_serves ran)
  | restarted _ ran ih => exact ih.trans (considerRestart_serves ran)

end

/-! ### Moments -/

variable [RandomSource G]

/-- A point of a run: before a step, or after a stage of the conclusion from a conflict. -/
inductive Moment where
  | before (control : Control)
  | after (stage : Stage)
deriving DecidableEq, Repr

/-- No conflict stands: it is time to propagate or to decide, or the trail has gone back from the
conflict. -/
def Moment.Calm : Moment → Prop
  | .before control => ∀ place, control ≠ .conflict place
  | .after stage => stage ≠ .rewarded

/-- The states of a run, each with its moment. -/
inductive Passes (clock : Nat → Bool) (s : Search G) : Moment → Search G → Prop where
  | before {control : Control} {next : Search G} (reachable : Reachable clock s control next) :
      Passes clock s (.before control) next
  | after {place level : Nat} {mid next : Search G} {analyser : Analyser} {conflict : Conflict}
      {c : Clause} {stage : Stage} (reachable : Reachable clock s (.conflict place) mid)
      (ran : mid.analyser.analyse mid.formula mid.trail place = .ok (analyser, .ok conflict))
      (drawn : lesson? conflict = some (c, level))
      (concluding : Concluding (mid.analysed analyser) c level stage next) :
      Passes clock s (.after stage) next

section

variable {clock : Nat → Bool} {f : Formula} {o : Options} {s next : Search G} {moment : Moment}

theorem Passes.kind_eq (passes : Passes clock s moment next) :
    next.propagator.kind = s.propagator.kind := by
  cases passes with
  | before reachable => exact reachable.grows.kind_eq
  | @after _ _ mid _ analyser _ _ _ reachable _ _ concluding =>
    have serves := (mid.analysed_serves analyser).trans concluding.serves
    exact (reachable.grows.trans serves.grows).kind_eq

variable (assembled : s.Assembled f o) (constructed : f.Constructed)
  (represented : f.numVars < literalBound)

include assembled constructed represented

/-- What the analysis of a conflict in a run has learnt. -/
theorem Reachable.taught {place level : Nat} {mid : Search G} {analyser : Analyser}
    {conflict : Conflict} {c : Clause} (reachable : Reachable clock s (.conflict place) mid)
    (ran : mid.analyser.analyse mid.formula mid.trail place = .ok (analyser, .ok conflict))
    (drawn : lesson? conflict = some (c, level)) :
    ∃ a others, Taught f o c level a others (mid.analysed analyser) := by
  have invariant := reachable.invariant assembled constructed represented
  -- A lesson is only drawn above level 0.
  have above : 0 < mid.trail.level := by
    by_contra not_above
    rw [Analyser.analyse_root (Nat.eq_zero_of_not_pos not_above)] at ran
    cases ran
    cases drawn
  obtain ⟨_, _, _, _, a, others, ran', drawn', taught⟩ := taught_of_invariant invariant above
  cases ran'.symm.trans ran
  cases drawn'.symm.trans drawn
  exact ⟨a, others, taught⟩

theorem Passes.known (passes : Passes clock s moment next) :
    next.Steady f o ∧ (moment.Calm → next.propagator.Ready next.formula next.trail) := by
  cases passes with
  | @before control _ reachable =>
    have invariant := reachable.invariant assembled constructed represented
    refine ⟨invariant.steady, fun calm => ?_⟩
    cases control with
    | propagate => exact invariant.at_control
    | conflict place => exact absurd rfl (calm place)
    | decide => exact invariant.at_control.1
  | @after place level mid _ analyser conflict c stage reachable ran drawn concluding =>
    obtain ⟨a, others, taught⟩ :=
      reachable.taught assembled constructed represented ran drawn
    have known := concluding.known taught
    exact ⟨known.steady, known.ready⟩

end

end Search

end ClauseLearning
