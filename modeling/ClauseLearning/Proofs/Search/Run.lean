import ClauseLearning.Proofs.Search.Start

/-!
# Runs of a search

A run makes step after step until the search ends. `Search.rounds` counts its steps in powers of
two, which amounts to a number of single steps that is known.

Main statements: a run keeps the invariant, and it ends with a right answer before the number of
steps allowed has been made. So the search needs no bound on its steps.
-/

namespace ClauseLearning.Search

variable {G : Type}

/-! ### Counting steps -/

/-- Goes on from where a search has got, unless it has ended. -/
def andThen (reached : Search G × Progress) (go : Control → Search G → Search G × Progress) :
    Search G × Progress :=
  match reached with
  | (s, .next control) => go control s
  | (s, .done verdict) => (s, .done verdict)
  | (s, .failed fault) => (s, .failed fault)

variable [RandomSource G]

/-- Makes `n` steps, fewer if the search ends. -/
def after (clock : Nat → Bool) : Nat → Control → Search G → Search G × Progress
  | 0, control, s => (s, .next control)
  | n + 1, control, s => andThen (s.step clock control) (after clock n)

variable {clock : Nat → Bool}

theorem andThen_after_zero (reached : Search G × Progress) :
    andThen reached (after clock 0) = reached := by
  cases reached with
  | mk s progress => cases progress <;> rfl

omit [RandomSource G] in
theorem andThen_andThen (reached : Search G × Progress)
    (first second : Control → Search G → Search G × Progress) :
    andThen (andThen reached first) second =
      andThen reached fun control s => andThen (first control s) second := by
  cases reached with
  | mk s progress => cases progress <;> rfl

theorem after_add (m n : Nat) :
    after clock (m + n) = fun control (s : Search G) =>
      andThen (after clock m control s) (after clock n) := by
  induction m with
  | zero =>
    rw [Nat.zero_add]
    rfl
  | succ m ih =>
    funext control s
    rw [Nat.succ_add, after, ih, after, andThen_andThen]

theorem advance_succ (e : Nat) (control : Control) (s : Search G) :
    advance clock (e + 1) control s = andThen (advance clock e control s) (advance clock e) := by
  rw [advance]
  cases advance clock e control s with
  | mk next progress => cases progress <;> rfl

theorem advance_eq_after (e : Nat) : advance (G := G) clock e = after clock (2 ^ e) := by
  induction e with
  | zero =>
    funext control s
    rw [Nat.pow_zero, after, andThen_after_zero, advance]
  | succ e ih =>
    funext control s
    rw [advance_succ, ih, Nat.pow_succ, Nat.mul_two, after_add]

theorem rounds_succ (n e : Nat) (control : Control) (s : Search G) :
    rounds clock (n + 1) e control s =
      andThen (advance clock e control s) (rounds clock n (e + 1)) := by
  rw [rounds]
  cases advance clock e control s with
  | mk next progress => cases progress <;> rfl

theorem rounds_eq_after (n : Nat) :
    ∀ e, rounds (G := G) clock n e = after clock (2 ^ (e + n) - 2 ^ e) := by
  induction n with
  | zero =>
    intro e
    rw [Nat.add_zero, Nat.sub_self]
    rfl
  | succ n ih =>
    intro e
    -- The rounds that are left double the steps of the first one.
    have total : 2 ^ e + (2 ^ (e + 1 + n) - 2 ^ (e + 1)) = 2 ^ (e + (n + 1)) - 2 ^ e := by
      have doubled : 2 ^ (e + 1) = 2 ^ e + 2 ^ e := by rw [Nat.pow_succ, Nat.mul_two]
      have le : 2 ^ (e + 1) ≤ 2 ^ (e + 1 + n) := Nat.pow_le_pow_right (by decide) (by omega)
      rw [show e + (n + 1) = e + 1 + n by omega]
      rw [doubled] at le ⊢
      generalize 2 ^ (e + 1 + n) = whole at le ⊢
      omega
    funext control s
    rw [rounds_succ, ih, advance_eq_after, ← total, after_add]

/-! ### The states of a run -/

/-- What can be said of a search before its first step. Nothing has been assigned where the formula
has no clauses, or an empty one. -/
inductive Begins (s : Search G) : Search G × Progress → Prop where
  | falsified (empty_clause : s.formula.hasEmptyClause = true) : Begins s (s, .done .unsat)
  | trivial {m : Model} (empty : s.formula.isEmpty = true)
      (made : Model.ofValues (Array.replicate s.formula.numVars true) = .ok m) :
      Begins s (s, .done (.sat m))
  | clashing {trail : Trail} (inhabited : s.formula.isEmpty = false)
      (asserted : assertUnits 0 s.formula.inputClauses s.trail = .ok (trail, false)) :
      Begins s ({ s with trail := trail }, .done .unsat)
  | rooted {trail : Trail} (inhabited : s.formula.isEmpty = false)
      (asserted : assertUnits 0 s.formula.inputClauses s.trail = .ok (trail, true)) :
      Begins s ({ s with trail := trail }, .next .propagate)
  | failed {fault : Fault} : Begins s (s, .failed fault)

omit [RandomSource G] in
theorem start_begins (s : Search G) : s.Begins s.start := by
  unfold start
  split
  next empty_clause => exact .falsified empty_clause
  next =>
    split
    next empty =>
      split
      next => exact .failed
      next made => exact .trivial empty made
    next some_clause =>
      have inhabited := Bool.eq_false_iff.2 some_clause
      split
      next => exact .failed
      next asserted => exact .rooted inhabited asserted
      next asserted => exact .clashing inhabited asserted

omit [RandomSource G] in
/-- At the start only the trail changes. -/
theorem start_fst (s : Search G) : ∃ trail, s.start.1 = { s with trail := trail } := by
  have begins := s.start_begins
  generalize s.start = reached at begins ⊢
  cases begins with
  | falsified | trivial | failed => exact ⟨s.trail, rfl⟩
  | clashing | rooted => exact ⟨_, rfl⟩

/-- How a step ends a search: all variables have a value, a conflict teaches nothing, or a limit
forbids to decide. -/
inductive Ends (s : Search G) (timeIsUp : Bool) : Control → Search G → Verdict → Prop where
  | solved {last : Search G} {m : Model} (full : last.trail.values.allAssigned = true)
      (made : last.solutions = .ok m) : Ends s timeIsUp .propagate last (.sat m)
  | refuted {place : Nat} {last : Search G} : Ends s timeIsUp (.conflict place) last .unsat
  | halted (reached : s.limitReached timeIsUp = true) : Ends s timeIsUp .decide s .unknown

theorem step_ends {s last : Search G} {control : Control} {verdict : Verdict}
    (ended : s.step clock control = (last, .done verdict)) :
    Ends s (clock s.counters.decisions) control last verdict := by
  cases control with
  | propagate =>
    simp only [step, propagate] at ended
    split at ended
    next => cases ended
    next =>
      split at ended
      next => cases ended
      next =>
        split at ended
        next full =>
          split at ended
          next => cases ended
          next made =>
            cases ended
            exact .solved full made
        next => cases ended
  | conflict place =>
    simp only [step, resolveConflict] at ended
    split at ended
    next => cases ended
    next => cases ended
    next =>
      split at ended
      next =>
        cases ended
        exact .refuted
      next => split at ended <;> cases ended
  | decide =>
    simp only [step, decide] at ended
    split at ended
    next reached =>
      cases ended
      exact .halted reached
    next =>
      split at ended
      next => cases ended
      next => cases ended
      next => split at ended <;> cases ended

/-- The states that a search goes through, with what is done next. -/
inductive Reachable (clock : Nat → Bool) (s : Search G) : Control → Search G → Prop where
  | start {first : Search G} {control : Control} (started : s.start = (first, .next control)) :
      Reachable clock s control first
  | step {mid next : Search G} {control after : Control} (reachable : Reachable clock s control mid)
      (stepped : mid.step clock control = (next, .next after)) : Reachable clock s after next

/-- What some steps of a run lead to: one of its states, or where a step from one ends the run. -/
def Arrives (clock : Nat → Bool) (s : Search G) : Search G × Progress → Prop
  | (next, .next control) => Reachable clock s control next
  | ended => ∃ control mid, Reachable clock s control mid ∧ mid.step clock control = ended

theorem Reachable.arrives {s : Search G} (n : Nat) :
    ∀ {control : Control} {mid : Search G}, Reachable clock s control mid →
      Arrives clock s (after clock n control mid) := by
  induction n with
  | zero =>
    intro control mid reachable
    exact reachable
  | succ n ih =>
    intro control mid reachable
    rw [after]
    cases stepped : mid.step clock control with
    | mk next progress =>
      cases progress with
      | next control => exact ih (.step reachable stepped)
      | done verdict => exact ⟨control, mid, reachable, stepped⟩
      | failed fault => exact ⟨control, mid, reachable, stepped⟩

/-- Where a search has got is known from how its start and its first steps end. -/
theorem reachable_of_progress {s : Search G} (n : Nat) {control last : Control}
    (started : s.start.2 = .next control)
    (ran : (after clock n control s.start.1).2 = .next last) :
    Reachable clock s last (after clock n control s.start.1).1 := by
  have reachable : Reachable clock s control s.start.1 := .start (Prod.ext rfl started)
  have arrives := reachable.arrives n
  cases reached : after clock n control s.start.1 with
  | mk next progress =>
    rw [reached] at ran arrives
    cases ran
    exact arrives

section

variable {f : Formula} {o : Options} {s : Search G} (assembled : s.Assembled f o)
  (constructed : f.Constructed) (represented : f.numVars < literalBound)

include assembled constructed represented

theorem Reachable.invariant {control : Control} {next : Search G}
    (reachable : Reachable clock s control next) : next.Invariant f o control := by
  induction reachable with
  | start started =>
    have leads := start_leads assembled constructed represented
    rw [started] at leads
    exact leads.1
  | step _ stepped ih =>
    have leads := (step_moves constructed.wellFormed.1 represented clock ih).leads ih
    rw [stepped] at leads
    exact leads.1

/-- What holds at the start and is kept by the steps of a search that meets the invariant holds in
all states of a run. -/
theorem Reachable.holds {P : Search G → Prop} (begins : P s.start.1)
    (steps : ∀ {control : Control} {mid : Search G}, mid.Invariant f o control → P mid →
      P (mid.step clock control).1)
    {control : Control} {next : Search G} (reachable : Reachable clock s control next) :
    P next := by
  induction reachable with
  | start started =>
    rw [started] at begins
    exact begins
  | step earlier stepped ih =>
    have kept := steps (earlier.invariant assembled constructed represented) ih
    rw [stepped] at kept
    exact kept

end

/-- It also holds after any number of steps from a state of which it holds. -/
theorem after_holds {base : Formula} {o : Options} (wellFormed : base.WellFormed)
    (represented : base.numVars < literalBound) {P : Search G → Prop}
    (steps : ∀ {control : Control} {mid : Search G}, mid.Invariant base o control → P mid →
      P (mid.step clock control).1) (n : Nat) :
    ∀ (control : Control) (s : Search G), s.Invariant base o control → P s →
      P (after clock n control s).1 := by
  induction n with
  | zero => exact fun control s _ holds => holds
  | succ n ih =>
    intro control s invariant holds
    have leads := (step_moves wellFormed represented clock invariant).leads invariant
    have kept := steps invariant holds
    rw [after]
    cases stepped : s.step clock control with
    | mk next progress =>
      rw [stepped] at leads kept
      cases progress with
      | next after => exact ih after next leads.1 kept
      | done verdict => exact kept
      | failed fault => exact kept

/-! ### The end of a run -/

/-- A run is its start and, unless that ends it, a number of steps. -/
theorem solveAgainst_eq_after {s : Search G} (clock : Nat → Bool) (fresh : s.verdict = none) :
    s.solveAgainst clock =
      finish (andThen s.start (after clock (2 ^ roundBound s.formula.numVars - 1))) := by
  obtain ⟨trail, first_eq⟩ := s.start_fst
  unfold solveAgainst
  rw [fresh]
  cases started : s.start with
  | mk first progress =>
    rw [started] at first_eq
    cases progress with
    | next control =>
      have same : first.formula = s.formula := by
        rw [show first = { s with trail := trail } from first_eq]
      simp only [andThen, rounds_eq_after, Nat.zero_add, Nat.pow_zero, same]
    | done verdict => rfl
    | failed fault => rfl

/-- What holds at the start and is kept by steps holds when a search has ended, if it is not about
the answer. -/
theorem Assembled.holds_at_end {f : Formula} {o : Options} {s : Search G}
    (assembled : s.Assembled f o) (constructed : f.Constructed)
    (represented : f.numVars < literalBound) {P : Search G → Prop} (begins : P s.start.1)
    (steps : ∀ {control : Control} {mid : Search G}, mid.Invariant f o control → P mid →
      P (mid.step clock control).1)
    (ends : ∀ {last : Search G} {verdict : Verdict}, P last →
      P { last with verdict := some verdict }) : P (s.solveAgainst clock).1 := by
  have leads := start_leads assembled constructed represented
  have holds : ∀ n, P (andThen s.start (after clock n)).1 := by
    intro n
    cases started : s.start with
    | mk first progress =>
      rw [started] at begins leads
      cases progress with
      | next control =>
        exact after_holds constructed.wellFormed.1 represented steps n control first leads.1 begins
      | done verdict => exact begins
      | failed fault => exact begins
  rw [solveAgainst_eq_after clock assembled.fresh]
  match andThen s.start (after clock _), holds _ with
  | (last, .done verdict), holds => exact ends holds
  | (last, .failed fault), holds => exact holds
  | (last, .next control), holds => exact holds

/-- Enough steps lead to an answer, and it is right. -/
theorem after_answers {base : Formula} {o : Options} (wellFormed : base.WellFormed)
    (represented : base.numVars < literalBound) (n : Nat) :
    ∀ (control : Control) (s : Search G), s.Invariant base o control → s.toGo control < n →
      ∃ last verdict, after clock n control s = (last, .done verdict) ∧
        verdict.Answers base o := by
  induction n with
  | zero =>
    intro control s _ enough
    exact absurd enough (Nat.not_lt_zero _)
  | succ n ih =>
    intro control s invariant enough
    -- Either the step ends the run, or it leads to a state from which one step less is enough.
    have leads := (step_moves wellFormed represented clock invariant).leads invariant
    cases stepped : s.step clock control with
    | mk next progress =>
      rw [after, stepped]
      rw [stepped] at leads
      cases progress with
      | next after =>
        obtain ⟨invariant_next, nearer⟩ := leads
        exact ih after next invariant_next (Nat.lt_of_lt_of_le nearer (Nat.le_of_lt_succ enough))
      | done verdict => exact ⟨next, verdict, rfl, leads⟩
      | failed fault => exact leads.elim

theorem solveAgainst_answers {f : Formula} {o : Options} {s : Search G} (clock : Nat → Bool)
    (assembled : s.Assembled f o) (constructed : f.Constructed)
    (represented : f.numVars < literalBound) :
    ∃ verdict, (s.solveAgainst clock).2 = .verdict verdict ∧ verdict.Answers f o := by
  have leads := start_leads assembled constructed represented
  rw [solveAgainst_eq_after clock assembled.fresh, assembled.formula_eq]
  cases started : s.start with
  | mk first progress =>
    rw [started] at leads
    cases progress with
    | next control =>
      -- As many steps are made as `enough` says, so none is left to do.
      obtain ⟨invariant, enough⟩ := leads
      obtain ⟨last, verdict, ended, answers⟩ := @after_answers G _ clock f o
        constructed.wellFormed.1 represented _ control first invariant enough
      refine ⟨verdict, ?_, answers⟩
      simp only [andThen, ended, finish]
    | done verdict => exact ⟨verdict, rfl, leads⟩
    | failed fault => exact leads.elim

/-- A search that has started ends with a step from one of its states. -/
theorem solveAgainst_ends {f : Formula} {o : Options} {s first : Search G} {control : Control}
    (clock : Nat → Bool) (assembled : s.Assembled f o) (constructed : f.Constructed)
    (represented : f.numVars < literalBound) (started : s.start = (first, .next control)) :
    ∃ final mid last verdict, Reachable clock s final mid ∧
      mid.step clock final = (last, .done verdict) ∧
      s.solveAgainst clock = ({ last with verdict := some verdict }, .verdict verdict) := by
  obtain ⟨verdict, answered, _⟩ := solveAgainst_answers clock assembled constructed represented
  have reachable : Reachable clock s control first := .start started
  have arrives := reachable.arrives (2 ^ roundBound s.formula.numVars - 1)
  rw [solveAgainst_eq_after clock assembled.fresh, started] at answered ⊢
  simp only [andThen] at answered ⊢
  cases ran : after clock (2 ^ roundBound s.formula.numVars - 1) control first with
  | mk last progress =>
    rw [ran] at answered arrives
    cases progress with
    | next _ => cases answered
    | failed fault => cases answered
    | done verdict =>
      obtain ⟨final, mid, reachable_mid, stepped⟩ := arrives
      exact ⟨final, mid, last, verdict, reachable_mid, stepped, rfl⟩

end ClauseLearning.Search
