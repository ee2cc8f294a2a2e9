import ClauseLearning.Failure

/-!
# Options of a search

The numbers that tune the strategies and the limits after which a search gives up.
-/

namespace ClauseLearning

/-- Tuning and limits of a search. A limit that is absent does not end the search; the time limit is
in nanoseconds. -/
structure Options where
  activityDecay : Float
  restartBase : Nat
  learntLimit : Nat
  maxConflicts : Option Nat
  maxDecisions : Option Nat
  timeLimit : Option Nat
  seed : UInt64
  phaseNoise : Float
  recordDecisions : Bool
deriving Repr

namespace Options

/-- The usual setting: a million conflicts and no other limit. -/
def standard : Options where
  activityDecay := 0.95
  restartBase := 100
  learntLimit := 10000
  maxConflicts := some 1000000
  maxDecisions := none
  timeLimit := none
  seed := 0
  phaseNoise := 0.0
  recordDecisions := false

/-- The first option that is out of range, if there is one. -/
def fault? (o : Options) : Option OptionFault :=
  if !(0.0 < o.activityDecay && o.activityDecay < 1.0) then some (.activityDecay o.activityDecay)
  else if o.restartBase = 0 then some .restartBase
  else if o.learntLimit = 0 then some .learntLimit
  else if !(0.0 ≤ o.phaseNoise && o.phaseNoise ≤ 1.0) then some (.phaseNoise o.phaseNoise)
  else none

/-- The options, if all are in range. -/
def validate (o : Options) : Except Failure Options :=
  match o.fault? with
  | some cause => .error (.invalidOption cause)
  | none => .ok o

end Options

end ClauseLearning
