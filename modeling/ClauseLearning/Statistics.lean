/-!
# Statistics of a search
-/

namespace ClauseLearning

/-- What a search has done so far. -/
structure Statistics where
  conflicts : Nat
  decisions : Nat
  propagations : Nat
  restarts : Nat
  learntClauses : Nat
  removedClauses : Nat
  backjumps : Nat
  totalBackjump : Nat
  maxBackjump : Nat
deriving DecidableEq, Repr

namespace Statistics

def zero : Statistics :=
  ⟨0, 0, 0, 0, 0, 0, 0, 0, 0⟩

/-- The mean number of levels that a backjump has popped. -/
def averageBackjump (s : Statistics) : Float :=
  if s.backjumps = 0 then 0.0
  else s.totalBackjump.toUInt64.toFloat / s.backjumps.toUInt64.toFloat

/-- Takes note of a backjump over a number of levels. -/
def jumped (s : Statistics) (distance : Nat) : Statistics :=
  { s with
    backjumps := s.backjumps + 1
    totalBackjump := s.totalBackjump + distance
    maxBackjump := max s.maxBackjump distance }

end Statistics

end ClauseLearning
