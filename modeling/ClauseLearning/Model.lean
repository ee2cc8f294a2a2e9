import ClauseLearning.Failure

/-!
# Models and verdicts

A model lists one signed number per variable, in the order of the variables: `v` where variable `v`
is true and `-v` where it is false. A verdict is the answer to a formula.
-/

namespace ClauseLearning

/-- A value for each of the variables `1, 2, …`, as signed numbers in the order of the variables. -/
structure Model where
  literals : Array Int
deriving DecidableEq, Repr

namespace Model

/-- The signed number of the variable at place `i`, counted from 0. -/
def entry (i : Nat) (value : Bool) : Int :=
  if value then ((i + 1 : Nat) : Int) else -((i + 1 : Nat) : Int)

/-- The model with the given values. A variable without a literal has no signed number. -/
def ofValues (values : Array Bool) : Except Fault Model :=
  if values.size < literalBound then .ok ⟨values.mapIdx entry⟩ else .error .outOfRange

def size (m : Model) : Nat :=
  m.literals.size

/-- The value of a variable, if the model covers it. -/
def value? (m : Model) (v : Variable) : Option Bool :=
  if v = 0 then none else (m.literals[v - 1]?).map fun z => decide (0 < z)

/-- The value of a literal, if the model covers its variable. -/
def literalValue? (m : Model) (l : Literal) : Option Bool :=
  (m.value? l.var).map fun b => b == l.polarity

/-- The signed numbers with a blank between each two. -/
def text (m : Model) : String :=
  " ".intercalate (m.literals.toList.map toString)

end Model

/-- The answer to a formula. -/
inductive Verdict where
  | sat (model : Model)
  | unsat
  | unknown
deriving DecidableEq, Repr

namespace Verdict

def model? : Verdict → Option Model
  | sat m => some m
  | unsat => none
  | unknown => none

/-- The exit code that solvers have agreed on for each answer. -/
def exitCode : Verdict → Nat
  | sat _ => 10
  | unsat => 20
  | unknown => 0

def text : Verdict → String
  | sat _ => "SATISFIABLE"
  | unsat => "UNSATISFIABLE"
  | unknown => "UNKNOWN"

end Verdict

end ClauseLearning
