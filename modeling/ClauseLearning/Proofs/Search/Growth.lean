import ClauseLearning.Proofs.Search.Run

/-!
# What only grows during a run

A search counts what it does: conflicts, decisions, assignments made by propagation, restarts,
clauses learnt and removed, backjumps and their lengths. It also keeps the kind of its propagator
and its options, and it appends to the decisions that it records.

Main statement: along every run no counter decreases, and the decisions recorded so far stay a
beginning of those recorded later. Only a decision is counted as one.
-/

namespace ClauseLearning

/-! ### Assignments made by propagation -/

namespace WatchRun

variable {s next : WatchRun} {l : Literal} {conflict : Option Nat}

theorem count_visit {place : Nat} {visit : Visit} (ran : s.visit l place = .ok (next, visit)) :
    s.count ≤ next.count := by
  obtain ⟨c, _, ran⟩ := bind_eq_ok.1 ran
  split at ran
  next => cases ran; exact Nat.le_refl _
  next =>
    split at ran
    next first second rest _ =>
      simp only at ran
      -- Which of the two literals has become false does not matter here.
      generalize (if first = l then second else first) = other at ran
      generalize (if first = l then first else second) = watched at ran
      split at ran
      next =>
        obtain ⟨_, _, made⟩ := bind_eq_ok.1 ran
        cases made
        exact Nat.le_refl _
      next =>
        split at ran
        next =>
          obtain ⟨_, _, ran⟩ := bind_eq_ok.1 ran
          obtain ⟨_, _, made⟩ := bind_eq_ok.1 ran
          cases made
          exact Nat.le_refl _
        next =>
          obtain ⟨_, _, ran⟩ := bind_eq_ok.1 ran
          split at ran
          next => cases ran; exact Nat.le_refl _
          next =>
            obtain ⟨_, _, made⟩ := bind_eq_ok.1 ran
            cases made
            exact Nat.le_succ _
    next => cases ran

theorem count_visitAll (places : List Nat) :
    ∀ (kept left : Array Nat) (s : WatchRun),
      visitAll l places kept s = .ok (next, left, conflict) → s.count ≤ next.count := by
  induction places with
  | nil =>
    intro kept left s ran
    cases ran
    exact Nat.le_refl _
  | cons place rest ih =>
    intro kept left s ran
    rw [visitAll] at ran
    split at ran
    next => cases ran
    next visited => exact Nat.le_trans (count_visit visited) (ih _ _ _ ran)
    next visited => exact Nat.le_trans (count_visit visited) (ih _ _ _ ran)
    next visited =>
      cases ran
      exact count_visit visited

theorem count_propagateFalse (ran : s.propagateFalse l = .ok (next, conflict)) :
    s.count ≤ next.count := by
  obtain ⟨_, _, ran⟩ := bind_eq_ok.1 ran
  obtain ⟨_, _, ran⟩ := bind_eq_ok.1 ran
  obtain ⟨⟨_, _, _⟩, visited, ran⟩ := bind_eq_ok.1 ran
  obtain ⟨_, _, made⟩ := bind_eq_ok.1 ran
  cases made
  exact (count_visitAll _ _ _ _ visited :)

theorem count_propagateFor (fuel : Nat) :
    ∀ s : WatchRun, propagateFor fuel s = .ok (next, conflict) → s.count ≤ next.count := by
  induction fuel with
  | zero =>
    intro s ran
    cases ran
    exact Nat.le_refl _
  | succ fuel ih =>
    intro s ran
    rw [propagateFor] at ran
    split at ran
    next => cases ran; exact Nat.le_refl _
    next =>
      split at ran
      next => cases ran
      next propagated =>
        cases ran
        exact (count_propagateFalse propagated :)
      next propagated => exact Nat.le_trans (count_propagateFalse propagated :) (ih _ ran)

end WatchRun

namespace Scan

theorem count_pass {next : Scan} {conflict : Option Nat} (clauses : List Clause) :
    ∀ (place : Nat) (s : Scan), pass clauses place s = .ok (next, conflict) →
      s.count ≤ next.count := by
  induction clauses with
  | nil =>
    intro place s ran
    cases ran
    exact Nat.le_refl _
  | cons c rest ih =>
    intro place s ran
    rw [pass] at ran
    split at ran
    next => exact ih _ _ ran
    next =>
      split at ran
      next => cases ran; exact Nat.le_refl _
      next =>
        split at ran
        next => cases ran
        next => exact Nat.le_trans (Nat.le_succ _) (ih _ _ ran)
      next => exact ih _ _ ran
      next => exact ih _ _ ran

theorem count_passes {next : Scan} {conflict : Option Nat} (clauses : List Clause) (fuel : Nat) :
    ∀ s : Scan, passes clauses fuel s = .ok (next, conflict) → s.count ≤ next.count := by
  induction fuel with
  | zero =>
    intro s ran
    cases ran
    exact Nat.le_refl _
  | succ fuel ih =>
    intro s ran
    rw [passes] at ran
    split at ran
    next => cases ran
    next passed =>
      cases ran
      exact (count_pass _ _ _ passed :)
    next passed =>
      have first := count_pass _ _ _ passed
      split at ran
      next =>
        cases ran
        exact first
      next => exact Nat.le_trans first (ih _ ran)

theorem count_propagate {s next : Scan} {clauses : List Clause} {conflict : Option Nat}
    (ran : propagate clauses s = .ok (next, conflict)) : s.count ≤ next.count := by
  unfold propagate at ran
  split at ran
  next => cases ran; exact Nat.le_refl _
  next => exact count_passes _ _ _ ran

end Scan

/-! ### Propagators -/

namespace Propagator

variable {p q r : Propagator}

/-- A propagator of the same kind that has made no fewer assignments. -/
structure Continues (p q : Propagator) : Prop where
  kind_eq : q.kind = p.kind
  count_le : p.count ≤ q.count

theorem Continues.refl (p : Propagator) : p.Continues p :=
  ⟨rfl, Nat.le_refl _⟩

theorem Continues.trans (first : p.Continues q) (second : q.Continues r) : p.Continues r :=
  ⟨second.kind_eq.trans first.kind_eq, Nat.le_trans first.count_le second.count_le⟩

theorem propagate_continues {t next : Trail} {f g : Formula} {conflict : Option Nat}
    (ran : p.propagate t f = .ok (q, next, g, conflict)) : p.Continues q := by
  cases p with
  | watched w n =>
    obtain ⟨⟨s, place⟩, propagated, made⟩ := bind_eq_ok.1 ran
    cases made
    exact ⟨rfl, (WatchRun.count_propagateFor _ _ propagated :)⟩
  | scan n =>
    obtain ⟨⟨s, place⟩, propagated, made⟩ := bind_eq_ok.1 ran
    cases made
    exact ⟨rfl, (Scan.count_propagate propagated :)⟩

/-- New watch lists leave the kind and the number of assignments alone. -/
theorem continues_of_map {x : Except Fault Watches} {w : Watches} {n : Nat}
    (ran : (x.map fun v => Propagator.watched v n) = .ok q) : (watched w n).Continues q := by
  obtain ⟨v, _, rfl⟩ := map_eq_ok.1 ran
  exact ⟨rfl, Nat.le_refl _⟩

theorem add_continues {c : Clause} {place : Nat} (ran : p.add c place = .ok q) :
    p.Continues q := by
  cases p with
  | watched w n => exact continues_of_map ran
  | scan n =>
    cases ran
    exact .refl _

theorem remove_continues {c : Clause} {place : Nat} (ran : p.remove c place = .ok q) :
    p.Continues q := by
  cases p with
  | watched w n => exact continues_of_map ran
  | scan n =>
    cases ran
    exact .refl _

theorem addAll_continues {entries : List (Nat × Clause)} (ran : p.addAll entries = .ok q) :
    p.Continues q := by
  cases p with
  | watched w n => exact continues_of_map ran
  | scan n =>
    cases ran
    exact .refl _

theorem dropFrom_continues (start : Nat) : p.Continues (p.dropFrom start) := by
  cases p with
  | watched w n => exact ⟨rfl, Nat.le_refl _⟩
  | scan n => exact .refl _

end Propagator

/-! ### Databases and restart schedules -/

namespace Database

variable {d next : Database} {f g : Formula} {p q : Propagator}

theorem insert_continues {c : Clause} {place : Nat}
    (ran : d.insert f p c = .ok (next, g, q, place)) :
    p.Continues q ∧ next.removed = d.removed := by
  simp only [insert] at ran
  split at ran
  next =>
    obtain ⟨_, _, ran⟩ := bind_eq_ok.1 ran
    obtain ⟨_, removed, ran⟩ := bind_eq_ok.1 ran
    obtain ⟨_, _, ran⟩ := bind_eq_ok.1 ran
    obtain ⟨_, added, ran⟩ := bind_eq_ok.1 ran
    cases ran
    exact ⟨(Propagator.remove_continues removed).trans (Propagator.add_continues added), rfl⟩
  next =>
    obtain ⟨_, added, ran⟩ := bind_eq_ok.1 ran
    cases ran
    exact ⟨Propagator.add_continues added, rfl⟩

theorem reduce_continues {t u : Trail} {removed : Nat}
    (ran : d.reduce f t p = .ok (next, g, u, q, removed)) :
    p.Continues q ∧ d.removed ≤ next.removed := by
  unfold reduce at ran
  cases reduction : d.reduction with
  | none =>
    rw [reduction] at ran
    cases ran
    exact ⟨.refl _, Nat.le_refl _⟩
  | some r =>
    simp only [reduction] at ran
    have more : ∀ k, d.removed ≤ r.removed + k := by
      intro k
      simp [Database.removed, reduction]
    split at ran
    next =>
      cases ran
      exact ⟨.refl _, more _⟩
    next =>
      obtain ⟨⟨_, _, _, _⟩, compacted, ran⟩ := bind_eq_ok.1 ran
      obtain ⟨_, listed, made⟩ := bind_eq_ok.1 compacted
      cases made
      cases ran
      exact ⟨(Propagator.dropFrom_continues _).trans (Propagator.addAll_continues listed), more _⟩

end Database

/-- A restart is counted when it is asked for. -/
theorem Restarter.restarts_onConflict (r : Restarter) :
    r.onConflict.1.restarts = if r.onConflict.2 then r.restarts + 1 else r.restarts := by
  cases r with
  | never => rfl
  | counting i =>
    unfold onConflict
    simp only
    split
    next =>
      simp only [restarts, Countdown.restart, if_true]
      split <;> rfl
    next => rfl

theorem Restarter.restarts_le_onConflict (r : Restarter) :
    r.restarts ≤ r.onConflict.1.restarts := by
  rw [r.restarts_onConflict]
  split
  · exact Nat.le_succ _
  · exact Nat.le_refl _

/-! ### Counters -/

namespace Statistics

/-- None of the numbers is greater. -/
structure AtMost (a b : Statistics) : Prop where
  conflicts : a.conflicts ≤ b.conflicts
  decisions : a.decisions ≤ b.decisions
  propagations : a.propagations ≤ b.propagations
  restarts : a.restarts ≤ b.restarts
  learntClauses : a.learntClauses ≤ b.learntClauses
  removedClauses : a.removedClauses ≤ b.removedClauses
  backjumps : a.backjumps ≤ b.backjumps
  totalBackjump : a.totalBackjump ≤ b.totalBackjump
  maxBackjump : a.maxBackjump ≤ b.maxBackjump

instance : Preorder Statistics where
  le := AtMost
  le_refl a := by constructor <;> exact Nat.le_refl _
  le_trans a b c first second :=
    { conflicts := Nat.le_trans first.conflicts second.conflicts
      decisions := Nat.le_trans first.decisions second.decisions
      propagations := Nat.le_trans first.propagations second.propagations
      restarts := Nat.le_trans first.restarts second.restarts
      learntClauses := Nat.le_trans first.learntClauses second.learntClauses
      removedClauses := Nat.le_trans first.removedClauses second.removedClauses
      backjumps := Nat.le_trans first.backjumps second.backjumps
      totalBackjump := Nat.le_trans first.totalBackjump second.totalBackjump
      maxBackjump := Nat.le_trans first.maxBackjump second.maxBackjump }

theorem le_jumped (a : Statistics) (distance : Nat) : a ≤ a.jumped distance := by
  constructor <;> simp [jumped]

theorem le_learnt (a : Statistics) : a ≤ { a with learntClauses := a.learntClauses + 1 } := by
  constructor <;> simp

theorem le_conflicted (a : Statistics) : a ≤ { a with conflicts := a.conflicts + 1 } := by
  constructor <;> simp

theorem le_decided (a : Statistics) : a ≤ { a with decisions := a.decisions + 1 } := by
  constructor <;> simp

end Statistics

namespace Search

variable {G : Type}

variable {s mid next : Search G} {level : Nat} {c : Clause}

/-- What the search goes on with when it does anything but decide. -/
structure Serves (s next : Search G) : Prop where
  options_eq : next.options = s.options
  decisions_eq : next.decisions = s.decisions
  decided_eq : next.counters.decisions = s.counters.decisions
  counters_le : s.counters ≤ next.counters
  propagator : s.propagator.Continues next.propagator
  restarts_le : s.restarter.restarts ≤ next.restarter.restarts
  removed_le : s.database.removed ≤ next.database.removed

/-- What the search goes on with. -/
structure Grows (s next : Search G) : Prop where
  kind_eq : next.propagator.kind = s.propagator.kind
  options_eq : next.options = s.options
  decisions_prefix : s.decisions.toList <+: next.decisions.toList
  statistics_le : s.statistics ≤ next.statistics

theorem Serves.refl (s : Search G) : s.Serves s :=
  ⟨rfl, rfl, rfl, le_refl _, .refl _, Nat.le_refl _, Nat.le_refl _⟩

theorem Serves.trans (first : s.Serves mid) (second : mid.Serves next) : s.Serves next where
  options_eq := second.options_eq.trans first.options_eq
  decisions_eq := second.decisions_eq.trans first.decisions_eq
  decided_eq := second.decided_eq.trans first.decided_eq
  counters_le := le_trans first.counters_le second.counters_le
  propagator := first.propagator.trans second.propagator
  restarts_le := Nat.le_trans first.restarts_le second.restarts_le
  removed_le := Nat.le_trans first.removed_le second.removed_le

theorem Grows.refl (s : Search G) : s.Grows s :=
  ⟨rfl, rfl, List.prefix_refl _, le_refl _⟩

theorem Grows.trans (first : s.Grows mid) (second : mid.Grows next) : s.Grows next where
  kind_eq := second.kind_eq.trans first.kind_eq
  options_eq := second.options_eq.trans first.options_eq
  decisions_prefix := first.decisions_prefix.trans second.decisions_prefix
  statistics_le := le_trans first.statistics_le second.statistics_le

/-- Some of the statistics are kept by the strategies, the others are counted by the search. -/
theorem Serves.grows (serves : s.Serves next) : s.Grows next where
  kind_eq := serves.propagator.kind_eq
  options_eq := serves.options_eq
  decisions_prefix := serves.decisions_eq ▸ List.prefix_refl _
  statistics_le :=
    { serves.counters_le with
      propagations := serves.propagator.count_le
      restarts := serves.restarts_le
      removedClauses := serves.removed_le }

/-! ### Stages of a conclusion -/

theorem reward_serves (ran : s.reward = .ok next) : s.Serves next := by
  obtain ⟨_, _, ran⟩ := bind_eq_ok.1 ran
  obtain ⟨_, _, made⟩ := bind_eq_ok.1 ran
  cases made
  exact ⟨rfl, rfl, rfl, le_refl _, .refl _, Nat.le_refl _, Nat.le_refl _⟩

theorem backtrack_serves (ran : s.backtrack level = .ok next) : s.Serves next := by
  obtain ⟨⟨_, _⟩, _, ran⟩ := bind_eq_ok.1 ran
  obtain ⟨⟨_, _⟩, _, made⟩ := bind_eq_ok.1 ran
  cases made
  exact ⟨rfl, rfl, rfl, le_refl _, .refl _, Nat.le_refl _, Nat.le_refl _⟩

theorem backjump_serves (ran : s.backjump level = .ok next) : s.Serves next := by
  have jumped : s.Serves { s with counters := s.counters.jumped (s.trail.level - level) } :=
    ⟨rfl, rfl, rfl, Statistics.le_jumped _ _, .refl _, Nat.le_refl _, Nat.le_refl _⟩
  exact jumped.trans (backtrack_serves ran)

theorem learn_serves (ran : s.learn c level = .ok next) : s.Serves next := by
  obtain ⟨asserting, _, ran⟩ := bind_eq_ok.1 ran
  simp only at ran
  split at ran
  next => cases ran
  next =>
    obtain ⟨⟨_, _, _, _⟩, inserted, ran⟩ := bind_eq_ok.1 ran
    obtain ⟨_, _, made⟩ := bind_eq_ok.1 ran
    cases made
    obtain ⟨continues, removed_eq⟩ := Database.insert_continues inserted
    exact ⟨rfl, rfl, rfl, Statistics.le_learnt _, continues, Nat.le_refl _,
      Nat.le_of_eq removed_eq.symm⟩

theorem noted_serves (s : Search G) : s.Serves s.noted := by
  obtain ⟨_, _, _, removed_eq⟩ := s.database.onConflict_rescored s.formula
  exact ⟨rfl, rfl, rfl, le_refl _, .refl _, Nat.le_refl _, Nat.le_of_eq removed_eq.symm⟩

theorem maintain_serves (ran : s.maintain = .ok next) : s.Serves next := by
  refine s.noted_serves.trans ?_
  unfold maintain at ran
  simp only at ran
  split at ran
  next =>
    obtain ⟨⟨_, _, _, _, _⟩, reduced, made⟩ := bind_eq_ok.1 ran
    cases made
    obtain ⟨continues, removed_le⟩ := Database.reduce_continues reduced
    exact ⟨rfl, rfl, rfl, le_refl _, continues, Nat.le_refl _, removed_le⟩
  next =>
    cases ran
    exact .refl _

theorem considerRestart_serves (ran : s.considerRestart = .ok next) : s.Serves next := by
  have counted : s.Serves { s with restarter := s.restarter.onConflict.1 } :=
    ⟨rfl, rfl, rfl, le_refl _, .refl _, s.restarter.restarts_le_onConflict, Nat.le_refl _⟩
  unfold considerRestart at ran
  simp only at ran
  split at ran
  next => exact counted.trans (backtrack_serves ran)
  next =>
    cases ran
    exact counted

theorem conclude_serves (ran : s.conclude c level = .ok next) : s.Serves next := by
  obtain ⟨_, rewarded, ran⟩ := bind_eq_ok.1 ran
  obtain ⟨_, jumped, ran⟩ := bind_eq_ok.1 ran
  obtain ⟨_, learnt, ran⟩ := bind_eq_ok.1 ran
  obtain ⟨_, maintained, restarted⟩ := bind_eq_ok.1 ran
  exact (reward_serves rewarded).trans <| (backjump_serves jumped).trans <|
    (learn_serves learnt).trans <| (maintain_serves maintained).trans <|
    considerRestart_serves restarted

/-! ### Steps -/

theorem analysed_serves (s : Search G) (analyser : Analyser) : s.Serves (s.analysed analyser) :=
  ⟨rfl, rfl, rfl, Statistics.le_conflicted _, .refl _, Nat.le_refl _, Nat.le_refl _⟩

theorem propagate_serves (s : Search G) : s.Serves s.propagate.1 := by
  unfold propagate
  split
  next => exact .refl _
  next q trail g conflict ran =>
    have propagated : s.Serves { s with propagator := q, trail := trail, formula := g } :=
      ⟨rfl, rfl, rfl, le_refl _, Propagator.propagate_continues ran, Nat.le_refl _, Nat.le_refl _⟩
    simp only
    split
    next => exact propagated
    next =>
      split
      next => split <;> exact propagated
      next => exact propagated

theorem resolveConflict_serves (s : Search G) (place : Nat) :
    s.Serves (s.resolveConflict place).1 := by
  unfold resolveConflict
  simp only
  split
  next => exact s.analysed_serves s.analyser
  next analyser _ _ => exact s.analysed_serves analyser
  next analyser conflict _ =>
    have analysed := s.analysed_serves analyser
    split
    next => exact analysed
    next =>
      split
      next => exact analysed
      next concluded => exact analysed.trans (conclude_serves concluded)

theorem decide_grows [RandomSource G] (s : Search G) (timeIsUp : Bool) :
    s.Grows (s.decide timeIsUp).1 := by
  unfold decide
  split
  next => exact .refl _
  next =>
    split
    next => exact .refl _
    next => exact ⟨rfl, rfl, List.prefix_refl _, le_refl _⟩
    next =>
      simp only
      split
      next => exact ⟨rfl, rfl, List.prefix_refl _, le_refl _⟩
      next ran =>
        obtain ⟨trail, _, made⟩ := bind_eq_ok.1 ran
        cases made
        refine ⟨rfl, rfl, ?_, { Statistics.le_decided s.statistics with }⟩
        simp only
        split
        next => simp
        next => exact List.prefix_refl _

theorem step_grows [RandomSource G] (clock : Nat → Bool) (control : Control) (s : Search G) :
    s.Grows (s.step clock control).1 := by
  cases control with
  | propagate => exact s.propagate_serves.grows
  | conflict place => exact (s.resolveConflict_serves place).grows
  | decide => exact s.decide_grows _

theorem start_grows (s : Search G) : s.Grows s.start.1 := by
  obtain ⟨trail, started⟩ := s.start_fst
  rw [started]
  exact ⟨rfl, rfl, List.prefix_refl _, le_refl _⟩

/-! ### Runs -/

theorem after_grows [RandomSource G] (clock : Nat → Bool) (n : Nat) :
    ∀ (control : Control) (s : Search G), s.Grows (after clock n control s).1 := by
  induction n with
  | zero => exact fun control s => .refl s
  | succ n ih =>
    intro control s
    have first := s.step_grows clock control
    rw [after]
    cases stepped : s.step clock control with
    | mk next progress =>
      rw [stepped] at first
      cases progress with
      | next after => exact first.trans (ih after next)
      | done verdict => exact first
      | failed fault => exact first

theorem finish_grows (reached : Search G × Progress) : reached.1.Grows (finish reached).1 := by
  cases reached with
  | mk s progress => cases progress <;> exact ⟨rfl, rfl, List.prefix_refl _, le_refl _⟩

theorem Reachable.grows [RandomSource G] {clock : Nat → Bool} {control : Control}
    (reachable : Reachable clock s control next) : s.Grows next := by
  induction reachable with
  | start started =>
    have first := s.start_grows
    rw [started] at first
    exact first
  | @step mid _ control _ _ stepped ih =>
    have more := mid.step_grows clock control
    rw [stepped] at more
    exact ih.trans more

end Search

end ClauseLearning
