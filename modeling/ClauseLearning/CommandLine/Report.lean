import ClauseLearning.Decimal.Fixed
import ClauseLearning.Formula
import ClauseLearning.Statistics

/-!
# Reports

What is printed about a solved formula: on request the table of statistics, the model, and always
the verdict. Times and memory are measured outside and passed in.
-/

namespace ClauseLearning.CommandLine

/-- Times in seconds and memory in MiB. -/
structure Measurements where
  parseTime : Float
  solveTime : Float
  allocated : Float
  resident : Float

def Measurements.none : Measurements :=
  ⟨0.0, 0.0, 0.0, 0.0⟩

def padRight (width : Nat) (text : String) : String :=
  text ++ String.ofList (List.replicate (width - text.length) ' ')

def padLeft (width : Nat) (text : String) : String :=
  String.ofList (List.replicate (width - text.length) ' ') ++ text

def row (label value : String) : String :=
  "|  " ++ padRight 28 label ++ " " ++ padLeft 18 value ++ "  |"

/-- A row with a number and its rate per second. -/
def rowWithRate (label : String) (value : Nat) (seconds : Float) : String :=
  let rate := if 0.0 < seconds then value.toUInt64.toFloat / seconds else 0.0
  "|  " ++ padRight 20 label ++ " " ++ padLeft 12 (toString value) ++
    " (" ++ padLeft 9 (Decimal.fixed 0 rate) ++ "/sec)  |"

def statisticsTable (f : Formula) (s : Statistics) (m : Measurements) : List String :=
  ["",
    "=======================[ Problem Statistics ]=========================",
    row "Parse time (s)" (Decimal.fixed 3 m.parseTime),
    row "Variables" (toString f.numVars),
    row "Clauses (original)" (toString f.inputCount),
    row "Literals (original)" (toString f.numLiterals),
    "========================[ Search Statistics ]========================",
    row "Learnt clauses" (toString s.learntClauses),
    row "Removed clauses" (toString s.removedClauses),
    rowWithRate "Conflicts" s.conflicts m.solveTime,
    rowWithRate "Decisions" s.decisions m.solveTime,
    rowWithRate "Propagations" s.propagations m.solveTime,
    rowWithRate "Restarts" s.restarts m.solveTime,
    row "Backjumps" (toString s.backjumps),
    row "Avg backjump distance" (Decimal.fixed 2 s.averageBackjump),
    row "Max backjump distance" (toString s.maxBackjump),
    row "Memory usage (MiB)" (Decimal.fixed 2 m.allocated),
    row "Resident memory (MiB)" (Decimal.fixed 2 m.resident),
    row "CPU time (s)" (Decimal.fixed 3 m.solveTime),
    "====================================================================="]

def verifiedLine (ok : Bool) : String :=
  "Verified: " ++ (if ok then "true" else "false")

end ClauseLearning.CommandLine
