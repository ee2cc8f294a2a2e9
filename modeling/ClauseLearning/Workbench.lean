import ClauseLearning.Search

/-!
# A workbench

The parts of a search over one formula, to be worked one operation at a time. The workbench
remembers the last conflict that propagation has found and the last conclusion of an analysis, so
that the next operation can refer to them.

An operation that ends in a breach leaves the workbench usable; looking outside a table does not.
-/

namespace ClauseLearning

/-- The parts of a search, with the last conflict and the last conclusion. -/
structure Workbench where
  search : Search
  conflict : Option Nat
  conclusion : Option Conflict

namespace Workbench

def iterate {σ : Type} (act : σ → Except Fault σ) : Nat → σ → Except Fault σ
  | 0, s => .ok s
  | n + 1, s =>
    match act s with
    | .error fault => .error fault
    | .ok s => iterate act n s

/-- Repeats an operation and lists its answers, the latest first. -/
def collect {σ α : Type} (act : σ → Except Fault (σ × α)) :
    Nat → List α → σ → Except Fault (σ × List α)
  | 0, answers, s => .ok (s, answers)
  | n + 1, answers, s =>
    match act s with
    | .error fault => .error fault
    | .ok (s, a) => collect act n (a :: answers) s

def setUp (f : Formula) (options : Options) (strategies : Strategies) : Except Fault Workbench :=
  (Search.build f options strategies).map fun s => ⟨s, none, none⟩

def withTrail (w : Workbench) (t : Trail) : Workbench :=
  { w with search := { w.search with trail := t } }

def withPropagator (w : Workbench) (p : Propagator) : Workbench :=
  { w with search := { w.search with propagator := p } }

/-! ### Trail -/

def assign (w : Workbench) (l : Literal) (reason : Reason) : Except Fault Workbench :=
  (w.search.trail.push l reason).map w.withTrail

def decide (w : Workbench) (l : Literal) : Except Fault Workbench :=
  (w.search.trail.pushDecision l).map w.withTrail

def backjumpLevel (w : Workbench) : Nat :=
  (w.conclusion.bind Conflict.backjump?).getD 0

/-- Goes back to a level, with phases and branching informed; lists the popped literals. -/
def backtrack (w : Workbench) (level : Nat) : Except Fault (Workbench × List Literal) := do
  let (_, popped) ← w.search.trail.backtrackTo level
  let search ← w.search.backtrack level
  return ({ w with search := search }, popped)

def setHead (w : Workbench) (head : Nat) : Workbench :=
  w.withTrail { w.search.trail with head := head }

/-- Moves the reasons of the trail as a table of old and new places says; the last entry for a place
counts. -/
def remap (w : Workbench) (table : List (Nat × Nat)) : Workbench :=
  w.withTrail (w.search.trail.remap fun old => table.reverse.lookup old)

/-- For each assigned variable, in order: level, position and reason of its assignment. -/
def assignedVars (w : Workbench) : Except Fault (List (Variable × Nat × Nat × Reason)) :=
  let t := w.search.trail
  ((List.range t.values.slots.size).filter fun v => (t.values.value? v).isSome).mapM fun v => do
    return (v, ← t.varLevel v, ← t.varPosition v, ← t.varReason v)

/-- Whether the current values, with false for variables that have none, satisfy the input. -/
def verifies (w : Workbench) : Except Fault Bool :=
  w.search.trail.values.model.map w.search.formula.verify

/-! ### Propagation -/

def propagate (w : Workbench) : Except Fault Workbench := do
  let (p, t, f, conflict) ← w.search.propagator.propagate w.search.trail w.search.formula
  return { w with
    search := { w.search with propagator := p, trail := t, formula := f }
    conflict := conflict }

def watch (w : Workbench) (place : Nat) : Except Fault Workbench := do
  return w.withPropagator (← w.search.propagator.add (← w.search.formula.clause place) place)

/-- Has the propagator look after a clause no longer. -/
def unwatch (w : Workbench) (place : Nat) : Except Fault Workbench := do
  return w.withPropagator (← w.search.propagator.remove (← w.search.formula.clause place) place)

/-- Has the propagator look after no clause from a place on. -/
def dropFrom (w : Workbench) (start : Nat) : Workbench :=
  w.withPropagator (w.search.propagator.dropFrom start)

/-- Starts with a new propagator of the same kind. -/
def rebuildPropagator (w : Workbench) : Except Fault Workbench :=
  (Propagator.make w.search.propagator.kind w.search.formula).map w.withPropagator

def delete (w : Workbench) (place : Nat) : Except Fault Workbench := do
  let f := w.search.formula
  let formula ← f.setClause place (← f.clause place).delete
  return { w with search := { w.search with formula := formula } }

/-! ### Analysis -/

/-- Analyses a conflict and remembers the conclusion, or forgets the last one after a breach. -/
def analyse (w : Workbench) (place : Nat) : Except Fault (Workbench × Except Breach Conflict) := do
  let (analyser, outcome) ← w.search.analyser.analyse w.search.formula w.search.trail place
  let w := { w with search := { w.search with analyser := analyser } }
  return ({ w with conclusion := outcome.toOption }, outcome)

/-! ### Database -/

def lesson? (w : Workbench) : Option Clause :=
  (w.conclusion.bind Search.lesson?).map Prod.fst

/-- Stores a learnt clause, and assigns its first literal if asked to; the answer is its place. -/
def learn (w : Workbench) (c : Clause) (assertFirst : Bool) : Except Fault (Workbench × Nat) := do
  let s := w.search
  let (database, formula, propagator, place) ← s.database.insert s.formula s.propagator c
  let trail ← if assertFirst then s.trail.push (← c.get 0) (.clause place) else .ok s.trail
  return ({ w with search := { s with
    database := database, formula := formula, propagator := propagator, trail := trail } }, place)

def bumpClauses (w : Workbench) (places : List Nat) : Except Fault Workbench := do
  let formula ← w.search.database.bumps w.search.formula places
  return { w with search := { w.search with formula := formula } }

def onConflict (w : Workbench) : Workbench :=
  let (database, formula) := w.search.database.onConflict w.search.formula
  { w with search := { w.search with database := database, formula := formula } }

def shouldReduce (w : Workbench) : Bool :=
  w.search.database.shouldReduce w.search.formula

/-- Reduces the database; the answer is the number of clauses removed. -/
def reduce (w : Workbench) : Except Fault (Workbench × Nat) := do
  let s := w.search
  let (database, formula, trail, propagator, removed) ←
    s.database.reduce s.formula s.trail s.propagator
  return ({ w with search := { s with
    database := database, formula := formula, trail := trail, propagator := propagator } }, removed)

/-! ### Branching and phases -/

def pick (w : Workbench) : Except Fault (Workbench × Option Variable) := do
  let (branching, v) ← w.search.branching.pick w.search.trail.values
  return ({ w with search := { w.search with branching := branching } }, v)

def bumpVars (w : Workbench) (vars : List Variable) : Except Fault Workbench := do
  let branching ← w.search.branching.bumps vars
  return { w with search := { w.search with branching := branching } }

def decay (w : Workbench) : Workbench :=
  { w with search := { w.search with branching := w.search.branching.decay } }

/-- Takes note of a variable that has become unassigned. -/
def onUnassign (w : Workbench) (v : Variable) : Except Fault Workbench := do
  let branching ← w.search.branching.onUnassign v
  return { w with search := { w.search with branching := branching } }

/-- The activities of the variables `1, 2, …` behind the increment, if branching is by activity. -/
def activities? (w : Workbench) : Option (Float × List Float) :=
  match w.search.branching with
  | .activity o => some (o.increment, o.activity.toList.drop 1)
  | .fixed => none
  | .random _ => none

def savePhase (w : Workbench) (l : Literal) : Except Fault Workbench := do
  let phases ← w.search.phases.save l
  return { w with search := { w.search with phases := phases } }

def nextPhase (w : Workbench) (v : Variable) : Workbench × Bool :=
  let (phases, b) := w.search.phases.next v
  ({ w with search := { w.search with phases := phases } }, b)

/-! ### Restarts -/

/-- Takes note of a conflict; the answer is whether to restart. -/
def shouldRestart (w : Workbench) : Workbench × Bool :=
  let (restarter, due) := w.search.restarter.onConflict
  ({ w with search := { w.search with restarter := restarter } }, due)

def countConflict (w : Workbench) : Workbench :=
  { w with search := { w.search with restarter := w.search.restarter.countConflict } }

/-- Starts the next interval; the answer is its length. -/
def restart (w : Workbench) : Workbench × Nat :=
  let restarter := w.search.restarter.restart
  ({ w with search := { w.search with restarter := restarter } }, restarter.remaining)

end Workbench

end ClauseLearning
