import ClauseLearning.Literal
import ClauseLearning.Decimal.Shortest
import ClauseLearning.Text.Numeral

/-!
# What can go wrong

Causes are kept apart as data and each is worded in one place. A `Failure` is reported to whoever
asked for the work. A `Fault` arises inside the search machinery: either an index lies outside its
table, or one of the relations between trail, clauses and levels that the search relies on does not
hold. Running out of budget is no failure: it is the verdict `unknown`.
-/

namespace ClauseLearning

/-! ### Formulas -/

/-- Why a list of signed numbers is no clause. -/
inductive ClauseFault where
  | tautology (var : Variable)
  | zeroLiteral
  | outOfRange (value : Int)
  | undeclared (var : Variable) (declared : Nat)
deriving DecidableEq, Repr

def ClauseFault.message : ClauseFault → String
  | .tautology v => "clause is a tautology on variable " ++ toString v
  | .zeroLiteral => "literal 0 does not name a variable"
  | .outOfRange z => "literal " ++ toString z ++ " is out of range"
  | .undeclared v n =>
    "variable " ++ toString v ++ " exceeds the declared variable count " ++ toString n

/-! ### Options -/

/-- Why a number of seconds is no duration. -/
inductive DurationFault where
  | negative
  | tooBigOrNan
deriving DecidableEq, Repr

def DurationFault.message : DurationFault → String
  | .negative => "cannot convert float seconds to Duration: value is negative"
  | .tooBigOrNan => "cannot convert float seconds to Duration: value is either too big or NaN"

/-- Why a search cannot be set up. -/
inductive OptionFault where
  | tooManyVariables (count : Nat)
  | activityDecay (value : Float)
  | restartBase
  | learntLimit
  | phaseNoise (value : Float)
  | timeLimit (seconds : Float) (cause : DurationFault)
deriving Repr

def OptionFault.message : OptionFault → String
  | .tooManyVariables n => toString n ++ " variables exceed the supported range"
  | .activityDecay x => "vsids_decay must be in (0, 1), got " ++ Decimal.shortest x
  | .restartBase => "restart_base must be positive"
  | .learntLimit => "learned_clause_limit must be positive"
  | .phaseNoise x => "phase_noise must be in [0, 1], got " ++ Decimal.shortest x
  | .timeLimit x cause => "time limit " ++ Decimal.shortest x ++ ": " ++ cause.message

/-! ### DIMACS text -/

/-- Why a line of DIMACS text cannot be read. -/
inductive ParseFault where
  | literal (token : String) (cause : Text.NumeralFault)
  | literalOutOfRange (token : String)
  | format (found : Option String)
  | missingVariableCount
  | variableCount (token : String) (cause : Text.NumeralFault)
  | clauseCount (token : String) (cause : Text.NumeralFault)
deriving DecidableEq, Repr

def ParseFault.message : ParseFault → String
  | .literal token cause => "invalid literal '" ++ token ++ "': " ++ cause.message
  | .literalOutOfRange token => "literal '" ++ token ++ "' is out of range"
  | .format found => "expected 'p cnf', found format " ++ found.getD "<none>"
  | .missingVariableCount => "missing variable count"
  | .variableCount token cause => "invalid variable count '" ++ token ++ "': " ++ cause.message
  | .clauseCount token cause => "invalid clause count '" ++ token ++ "': " ++ cause.message

/-- Why bytes could not be had. -/
inductive InputFault where
  | notText
  | system (reason : String)
deriving DecidableEq, Repr

def InputFault.message : InputFault → String
  | .notText => "stream did not contain valid UTF-8"
  | .system reason => reason

/-! ### The search -/

/-- A relation between trail, clauses and levels that does not hold. -/
inductive Breach where
  | noLiteralAtLevel (clause level : Nat)
  | ranOffTrail
  | reachedDecision (literal : Literal) (left : Nat)
  | backjumpAbove (target current : Nat)
  | assertingAssigned (literal : Literal) (level : Nat)
  | nothingToDecide
deriving DecidableEq, Repr

def Breach.message : Breach → String
  | .noLiteralAtLevel clause level =>
    "clause " ++ toString clause ++ " has no literal at conflict level " ++ toString level
  | .ranOffTrail => "conflict analysis ran off the start of the trail"
  | .reachedDecision l left =>
    "reached decision " ++ l.text ++ " with " ++ toString left ++ " current-level literals left"
  | .backjumpAbove target current =>
    "backjump to level " ++ toString target ++ " from level " ++ toString current
  | .assertingAssigned l level =>
    "asserting literal " ++ l.text ++ " is assigned after backjumping to level " ++ toString level
  | .nothingToDecide => "no variable to decide on a partial assignment"

/-- What can stop an operation of the search: a number outside the range of a table or of the
literals, or a breach. -/
inductive Fault where
  | outOfRange
  | breach (cause : Breach)
deriving DecidableEq, Repr

/-! ### Failures -/

/-- Why a request has no answer. -/
inductive Failure where
  | invalidFormula (clause : Nat) (reason : ClauseFault)
  | invalidOption (cause : OptionFault)
  | parse (line : Nat) (cause : ParseFault)
  | input (cause : InputFault)
  | invariant (cause : Breach)
deriving Repr

def Failure.message : Failure → String
  | .invalidFormula clause reason =>
    "invalid formula: clause " ++ toString clause ++ ": " ++ reason.message
  | .invalidOption cause => "invalid solver option: " ++ cause.message
  | .parse line cause => "parse error on line " ++ toString line ++ ": " ++ cause.message
  | .input cause => "I/O error: " ++ cause.message
  | .invariant cause => "internal invariant violated: " ++ cause.message

end ClauseLearning
