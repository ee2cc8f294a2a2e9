import ClauseLearning.Analysis
import ClauseLearning.Statistics
import ClauseLearning.Strategy

/-!
# The search

The search alternates between three states of control.

* `propagate`: run the propagator. A conflict is dealt with next; without one, the formula is
  satisfied if every variable has a value, and otherwise a decision is due.
* `conflict`: learn a clause from the conflict, go back to the level where the clause forces its
  first literal, store the clause and assign the literal. A conflict at level 0 shows that the
  formula is unsatisfiable. The database may be reduced and the search restarted.
* `decide`: give up if a limit has been reached; otherwise open a level with a picked variable.

Clauses of one literal are assigned at level 0 before the search begins. A formula with an empty
clause is unsatisfiable, and one without clauses is satisfied by making every variable true.

`Search.step` makes one step. `Search.advance` repeats it `2 ^ e` times and `Search.rounds` repeats
that for growing `e`. The number of rounds is computed from the number of variables and is more than
any search needs: there are at most `3 ^ n` clauses over `n` variables, none is learnt while it is
stored, and each reduction of the database raises the limit for the next.
-/

namespace ClauseLearning

/-- The state of a search that draws its random numbers from `G`. -/
structure Search (G : Type := Generator) where
  formula : Formula
  trail : Trail
  propagator : Propagator
  branching : Branching G
  phases : Phases G
  restarter : Restarter
  database : Database
  analyser : Analyser
  options : Options
  counters : Statistics
  decisions : Array Literal
  verdict : Option Verdict

/-- What the search does next. -/
inductive Control where
  | propagate
  | conflict (place : Nat)
  | decide
deriving DecidableEq, Repr

/-- What a step leads to. -/
inductive Progress where
  | next (control : Control)
  | done (verdict : Verdict)
  | failed (fault : Fault)
deriving DecidableEq, Repr

/-- How a search ends. `unfinished` means that the number of steps was not enough. -/
inductive Outcome where
  | verdict (answer : Verdict)
  | failed (fault : Fault)
  | unfinished
deriving DecidableEq, Repr

namespace Search

variable {G : Type}

/-! ### Setting up -/

def ofParts (f : Formula) (options : Options) (propagator : Propagator) (branching : Branching G)
    (phases : Phases G) (restarter : Restarter) (database : Database) : Search G where
  formula := f
  trail := Trail.empty f.numVars
  propagator := propagator
  branching := branching
  phases := phases
  restarter := restarter
  database := database
  analyser := Analyser.empty f.numVars
  options := options
  counters := Statistics.zero
  decisions := Array.empty
  verdict := none

/-- A search with the given strategies; the options are taken as they are. -/
def build [RandomSource G] (f : Formula) (options : Options) (s : Strategies) :
    Except Fault (Search G) := do
  let propagator ← Propagator.make s.propagator f
  return ofParts f options propagator
    (Branching.make s.branching f.numVars options)
    (Phases.make s.phase f.numVars options)
    (Restarter.make s.restarter options)
    (Database.make s.database f options)

/-- The statistics, with the numbers that the strategies keep themselves. -/
def statistics (s : Search G) : Statistics :=
  { s.counters with
    propagations := s.propagator.count
    restarts := s.restarter.restarts
    removedClauses := s.database.removed }

/-- The current values as a model, in which a variable without a value counts as false. -/
def solutions (s : Search G) : Except Fault Model :=
  s.trail.values.model

/-- Picks variables and lets them go, `n` times. -/
def discardPicks [RandomSource G] : Nat → Search G → Except Fault (Search G)
  | 0, s => .ok s
  | n + 1, s => do
    let (branching, _) ← s.branching.pick s.trail.values
    discardPicks n { s with branching := branching }

/-! ### Steps -/

/-- Assigns the literals of input clauses of one literal, the first clause at place `place`. The
answer is false if two of them contradict each other. -/
def assertUnits (place : Nat) : List Clause → Trail → Except Fault (Trail × Bool)
  | [], t => .ok (t, true)
  | c :: rest, t =>
    match c.literals with
    | [l] =>
      match t.values.literalValue? l with
      | some true => assertUnits (place + 1) rest t
      | some false => .ok (t, false)
      | none =>
        match t.push l (.clause place) with
        | .error fault => .error fault
        | .ok t => assertUnits (place + 1) rest t
    | _ => assertUnits (place + 1) rest t

/-- Whether a limit has been reached. A time limit of zero has passed from the start; whether
another one has passed is for whoever drives the search to say. -/
def limitReached (s : Search G) (timeIsUp : Bool) : Bool :=
  (s.options.maxConflicts.any fun n => decide (n ≤ s.counters.conflicts)) ||
    (s.options.maxDecisions.any fun n => decide (n ≤ s.counters.decisions)) ||
    (s.options.timeLimit.any fun n => n == 0 || timeIsUp)

/-- Remembers the phases of popped literals and offers their variables for picking again. -/
def releaseAll : List Literal → Phases G → Branching G → Except Fault (Phases G × Branching G)
  | [], phases, branching => .ok (phases, branching)
  | l :: rest, phases, branching => do
    let phases ← phases.save l
    let branching ← branching.onUnassign l.var
    releaseAll rest phases branching

def backtrack (s : Search G) (level : Nat) : Except Fault (Search G) := do
  let (trail, popped) ← s.trail.backtrackTo level
  let (phases, branching) ← releaseAll popped s.phases s.branching
  return { s with trail := trail, phases := phases, branching := branching }

/-- Goes back to a level because of a conflict. -/
def backjump (s : Search G) (level : Nat) : Except Fault (Search G) :=
  { s with counters := s.counters.jumped (s.trail.level - level) }.backtrack level

/-- The clause to learn from a conflict above level 0 and the level to go back to. -/
def lesson? : Conflict → Option (Clause × Nat)
  | .ground => none
  | .unit l => some (Clause.ofLearnt [l] 1, 0)
  | .learned c level => some (c, level)

/-- Raises the activity of the clauses and variables that the last analysis has used. -/
def reward (s : Search G) : Except Fault (Search G) := do
  let formula ← s.database.bumps s.formula s.analyser.resolved.toList
  let branching ← s.branching.bumps s.analyser.involved.toList
  return { s with formula := formula, branching := branching.decay }

/-- Stores a learnt clause and assigns its first literal. -/
def learn (s : Search G) (c : Clause) (level : Nat) : Except Fault (Search G) := do
  let asserting ← c.get 0
  if (s.trail.values.literalValue? asserting).isSome then
    .error (.breach (.assertingAssigned asserting level))
  else
    let (database, formula, propagator, place) ← s.database.insert s.formula s.propagator c
    let trail ← s.trail.push asserting (.clause place)
    return { s with
      database := database
      formula := formula
      propagator := propagator
      trail := trail
      counters := { s.counters with learntClauses := s.counters.learntClauses + 1 } }

/-- Lets the database know of the conflict, and reduces it if it has grown past its limit. -/
def maintain (s : Search G) : Except Fault (Search G) := do
  let (database, formula) := s.database.onConflict s.formula
  let s := { s with database := database, formula := formula }
  if s.database.shouldReduce s.formula then
    let (database, formula, trail, propagator, _) ←
      s.database.reduce s.formula s.trail s.propagator
    return { s with
      database := database, formula := formula, trail := trail, propagator := propagator }
  else return s

/-- Lets the restart schedule know of the conflict, and restarts if it is time. -/
def considerRestart (s : Search G) : Except Fault (Search G) :=
  let (restarter, due) := s.restarter.onConflict
  let s := { s with restarter := restarter }
  if due then s.backtrack 0 else .ok s

def conclude (s : Search G) (c : Clause) (level : Nat) : Except Fault (Search G) := do
  let s ← s.reward
  let s ← s.backjump level
  let s ← s.learn c level
  let s ← s.maintain
  s.considerRestart

def resolveConflict (s : Search G) (place : Nat) : Search G × Progress :=
  let s := { s with counters := { s.counters with conflicts := s.counters.conflicts + 1 } }
  match s.analyser.analyse s.formula s.trail place with
  | .error fault => (s, .failed fault)
  | .ok (analyser, .error breach) => ({ s with analyser := analyser }, .failed (.breach breach))
  | .ok (analyser, .ok conflict) =>
    let s := { s with analyser := analyser }
    match lesson? conflict with
    | none => (s, .done .unsat)
    | some (c, level) =>
      match s.conclude c level with
      | .error fault => (s, .failed fault)
      | .ok s => (s, .next .propagate)

def propagate (s : Search G) : Search G × Progress :=
  match s.propagator.propagate s.trail s.formula with
  | .error fault => (s, .failed fault)
  | .ok (propagator, trail, formula, conflict) =>
    let s := { s with propagator := propagator, trail := trail, formula := formula }
    match conflict with
    | some place => (s, .next (.conflict place))
    | none =>
      if s.trail.values.allAssigned then
        match s.trail.values.model with
        | .error fault => (s, .failed fault)
        | .ok m => (s, .done (.sat m))
      else (s, .next .decide)

/-- Opens a level with a literal, and records it if that is asked for. -/
def branchOn (s : Search G) (l : Literal) : Except Fault (Search G) := do
  let trail ← s.trail.pushDecision l
  return { s with
    trail := trail
    counters := { s.counters with decisions := s.counters.decisions + 1 }
    decisions := if s.options.recordDecisions then s.decisions.push l else s.decisions }

/-- Decides a variable, unless a limit has been reached. -/
def decide [RandomSource G] (s : Search G) (timeIsUp : Bool) : Search G × Progress :=
  if s.limitReached timeIsUp then (s, .done .unknown)
  else
    match s.branching.pick s.trail.values with
    | .error fault => (s, .failed fault)
    | .ok (branching, none) =>
      ({ s with branching := branching }, .failed (.breach .nothingToDecide))
    | .ok (branching, some v) =>
      let (phases, polarity) := s.phases.next v
      let s := { s with branching := branching, phases := phases }
      match s.branchOn (Literal.ofVar v polarity) with
      | .error fault => (s, .failed fault)
      | .ok s => (s, .next .propagate)

/-- Makes one step. A clock tells of each number of decisions whether the time limit has passed when
so many have been made and the next is due. -/
def step [RandomSource G] (clock : Nat → Bool) (control : Control) (s : Search G) :
    Search G × Progress :=
  match control with
  | .propagate => s.propagate
  | .conflict place => s.resolveConflict place
  | .decide => s.decide (clock s.counters.decisions)

/-! ### Runs -/

/-- Makes `2 ^ e` steps, fewer if the search ends. -/
def advance [RandomSource G] (clock : Nat → Bool) :
    Nat → Control → Search G → Search G × Progress
  | 0, control, s => s.step clock control
  | e + 1, control, s =>
    match advance clock e control s with
    | (s, .next control) => advance clock e control s
    | (s, .done verdict) => (s, .done verdict)
    | (s, .failed fault) => (s, .failed fault)

/-- Makes `2 ^ e`, `2 ^ (e + 1)`, … steps, for the given number of rounds. -/
def rounds [RandomSource G] (clock : Nat → Bool) :
    Nat → Nat → Control → Search G → Search G × Progress
  | 0, _, control, s => (s, .next control)
  | n + 1, e, control, s =>
    match advance clock e control s with
    | (s, .next control) => rounds clock n (e + 1) control s
    | (s, .done verdict) => (s, .done verdict)
    | (s, .failed fault) => (s, .failed fault)

/-- The number of rounds that is enough for every search over `n` variables. -/
def roundBound (n : Nat) : Nat :=
  5 * n + 9

/-- What can be said before the first step: an answer, a fault, or that propagation is next. -/
def start (s : Search G) : Search G × Progress :=
  if s.formula.hasEmptyClause then (s, .done .unsat)
  else if s.formula.isEmpty then
    match Model.ofValues (Array.replicate s.formula.numVars true) with
    | .error fault => (s, .failed fault)
    | .ok m => (s, .done (.sat m))
  else
    match assertUnits 0 s.formula.inputClauses s.trail with
    | .error fault => (s, .failed fault)
    | .ok (trail, true) => ({ s with trail := trail }, .next .propagate)
    | .ok (trail, false) => ({ s with trail := trail }, .done .unsat)

/-- Ends a run: an answer is remembered. -/
def finish : Search G × Progress → Search G × Outcome
  | (s, .done verdict) => ({ s with verdict := some verdict }, .verdict verdict)
  | (s, .failed fault) => (s, .failed fault)
  | (s, .next _) => (s, .unfinished)

/-- Searches to the end against a clock. A search that has given its answer gives it again. -/
def solveAgainst [RandomSource G] (clock : Nat → Bool) (s : Search G) : Search G × Outcome :=
  match s.verdict with
  | some verdict => (s, .verdict verdict)
  | none =>
    match s.start with
    | (s, .next control) => finish (rounds clock (roundBound s.formula.numVars) 0 control s)
    | other => finish other

/-- Searches to the end, with all the time that it takes unless the time limit is zero. -/
def solve [RandomSource G] (s : Search G) : Search G × Outcome :=
  s.solveAgainst fun _ => false

end Search

end ClauseLearning
