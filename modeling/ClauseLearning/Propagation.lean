import ClauseLearning.Propagation.Watched
import ClauseLearning.Propagation.Scan

/-!
# Propagators

A propagator takes the assignments on the trail that have not been propagated and assigns the last
free literal of every clause whose other literals are all false, with that clause as the reason. It
stops when nothing is left to do, or at a clause with only false literals, whose place it returns.
-/

namespace ClauseLearning

/-- A propagator with the number of assignments it has made. -/
inductive Propagator where
  | watched (watches : Watches) (count : Nat)
  | scan (count : Nat)

/-- Names a kind of propagator. -/
inductive PropagatorKind where
  | watched
  | scan
deriving DecidableEq, Repr

namespace Propagator

/-- A new propagator for the clauses of a formula. -/
def make (kind : PropagatorKind) (f : Formula) : Except Fault Propagator :=
  match kind with
  | .watched => (Watches.ofFormula f).map fun w => .watched w 0
  | .scan => .ok (.scan 0)

def kind : Propagator → PropagatorKind
  | .watched _ _ => .watched
  | .scan _ => .scan

def count : Propagator → Nat
  | .watched _ n => n
  | .scan n => n

/-- The watch lists, if there are any. -/
def watches? : Propagator → Option Watches
  | .watched w _ => some w
  | .scan _ => none

/-- Starts to look after the clause at a place. -/
def add (p : Propagator) (c : Clause) (place : Nat) : Except Fault Propagator :=
  match p with
  | .watched w n => (w.add c place).map fun w => .watched w n
  | .scan n => .ok (.scan n)

/-- Starts to look after clauses, each with its place. -/
def addAll (p : Propagator) (entries : List (Nat × Clause)) : Except Fault Propagator :=
  match p with
  | .watched w n => (w.addAll entries).map fun w => .watched w n
  | .scan n => .ok (.scan n)

def remove (p : Propagator) (c : Clause) (place : Nat) : Except Fault Propagator :=
  match p with
  | .watched w n => (w.remove c place).map fun w => .watched w n
  | .scan n => .ok (.scan n)

/-- Stops looking after all clauses from a place on. -/
def dropFrom (p : Propagator) (start : Nat) : Propagator :=
  match p with
  | .watched w n => .watched (w.dropFrom start) n
  | .scan n => .scan n

/-- Propagates the trail; the result has the place of a conflict. -/
def propagate (p : Propagator) (t : Trail) (f : Formula) :
    Except Fault (Propagator × Trail × Formula × Option Nat) :=
  match p with
  | .watched w n => do
    let (s, conflict) ← WatchRun.propagate ⟨w, t, f, n⟩
    return (.watched s.watches s.count, s.trail, s.formula, conflict)
  | .scan n => do
    let (s, conflict) ← Scan.propagate f.clauses.toList ⟨t, n⟩
    return (.scan s.count, s.trail, f, conflict)

end Propagator

end ClauseLearning
