import ClauseLearning.Clause
import ClauseLearning.Model
import ClauseLearning.Table

/-!
# Formulas

A formula is a list of clauses over the variables `1, …, numVars`. The first `inputCount` clauses
are the input; the search appends the clauses it learns behind them. A clause is referred to by its
place in the list, by the trail (as a reason) and by the watch lists.

Only well-formed input is accepted. The literals of a clause are looked at in order, and the first
that is zero, out of range or undeclared is reported; a clause whose literals are all in order may
still be a tautology.
-/

namespace ClauseLearning

/-- Clauses over the variables `1, …, numVars`: the input, and behind it what was learnt. -/
structure Formula where
  clauses : Array Clause
  numVars : Nat
  inputCount : Nat
deriving Repr

namespace Formula

/-- The greatest number of variables that can be declared. -/
def maxVars : Nat := 0xffffffff

/-- The literal of a signed number, for variables up to `declared`. -/
def readLiteral (declared : Nat) (z : Int) : Except ClauseFault Literal :=
  match Literal.ofInt? z with
  | none => .error (if z = 0 then .zeroLiteral else .outOfRange z)
  | some l => if declared < l.var then .error (.undeclared l.var declared) else .ok l

/-- The clause of a list of signed numbers, for variables up to `declared`. -/
def readClause (declared : Nat) (numbers : List Int) : Except ClauseFault Clause := do
  Clause.ofLiterals (← numbers.mapM (readLiteral declared))

/-- The clauses of lists of signed numbers, the first of them at place `start`. -/
def readClauses (declared : Nat) (start : Nat) : List (List Int) → Except Failure (List Clause)
  | [] => .ok []
  | numbers :: rest =>
    match readClause declared numbers with
    | .error reason => .error (.invalidFormula start reason)
    | .ok c => (readClauses declared (start + 1) rest).map (c :: ·)

/-- The formula of the given clauses over exactly `count` variables. -/
def withVars (count : Nat) (clauses : List (List Int)) : Except Failure Formula :=
  if maxVars < count then .error (.invalidOption (.tooManyVariables count))
  else (readClauses count 0 clauses).map fun cs => ⟨cs.toArray, count, cs.length⟩

/-- The greatest variable in lists of signed numbers, 0 if there is none. -/
def greatestVar (clauses : List (List Int)) : Nat :=
  clauses.foldl (fun n c => c.foldl (fun n z => max n z.natAbs) n) 0

/-- The formula of the given clauses over the variables up to the greatest that occurs. -/
def ofClauses (clauses : List (List Int)) : Except Failure Formula :=
  withVars (greatestVar clauses) clauses

/-- The number of clauses, learnt ones and those marked as deleted included. -/
def size (f : Formula) : Nat :=
  f.clauses.size

def isEmpty (f : Formula) : Bool :=
  f.clauses.isEmpty

/-- The clause at place `i`. -/
def clause (f : Formula) (i : Nat) : Except Fault Clause :=
  lookup f.clauses i

/-- The formula with the clause at place `i` replaced. -/
def setClause (f : Formula) (i : Nat) (c : Clause) : Except Fault Formula :=
  if h : i < f.clauses.size then .ok { f with clauses := f.clauses.set i c h }
  else .error .outOfRange

/-- The formula with a clause appended; its place is the old size. -/
def push (f : Formula) (c : Clause) : Formula :=
  { f with clauses := f.clauses.push c }

def inputClauses (f : Formula) : List Clause :=
  f.clauses.toList.take f.inputCount

/-- The clauses behind the input, each with its place. -/
def learntRegion (f : Formula) : List (Nat × Clause) :=
  (f.clauses.toList.drop f.inputCount).mapIdx fun i c => (f.inputCount + i, c)

/-- The learnt clauses that are not marked as deleted, each with its place. -/
def learntClauses (f : Formula) : List (Nat × Clause) :=
  f.learntRegion.filter fun entry => !entry.2.deleted

/-- The number of learnt clauses that are not marked as deleted. -/
def numLearnt (f : Formula) : Nat :=
  f.learntClauses.length

def numLiterals (f : Formula) : Nat :=
  f.inputClauses.foldl (fun n c => n + c.size) 0

/-- Whether some input clause has no literals. -/
def hasEmptyClause (f : Formula) : Bool :=
  f.inputClauses.any Clause.isEmpty

/-- The variables, in order. -/
def vars (f : Formula) : List Variable :=
  List.range' 1 f.numVars

/-- Whether a model makes every input clause true. -/
def verify (f : Formula) (m : Model) : Bool :=
  f.inputClauses.all fun c => c.satisfiedBy m.literalValue?

protected def beq (a b : Formula) : Bool :=
  a.clauses == b.clauses && a.numVars == b.numVars && a.inputCount == b.inputCount

instance : BEq Formula := ⟨Formula.beq⟩

end Formula

end ClauseLearning
