import ClauseLearning.Options
import ClauseLearning.Random
import ClauseLearning.Table

/-!
# Phases

The phase is the polarity with which a variable is decided: the value the variable had last, now and
then its opposite, or always true.
-/

namespace ClauseLearning

/-- The choice of polarities for decisions. -/
inductive Phases (G : Type) where
  | saved (last : Array Bool) (noise : Float) (source : G)
  | fixed

/-- Names a choice of polarities. -/
inductive PhaseKind where
  | saved
  | fixed
deriving DecidableEq, Repr

namespace Phases

variable {G : Type}

/-- A new choice for the variables `1, …, numVars`; at first every variable is decided true. -/
def make [RandomSource G] (kind : PhaseKind) (numVars : Nat) (options : Options) : Phases G :=
  match kind with
  | .saved =>
    .saved (Array.replicate (numVars + 1) true) options.phaseNoise
      (RandomSource.ofSeed options.seed)
  | .fixed => .fixed

def save (p : Phases G) (l : Literal) : Except Fault (Phases G) :=
  match p with
  | .saved last noise g => (store last l.var l.polarity).map fun last => .saved last noise g
  | .fixed => .ok .fixed

/-- The polarity for a variable. With noise, a random fraction below it turns the polarity
around. -/
def next [RandomSource G] (p : Phases G) (v : Variable) : Phases G × Bool :=
  match p with
  | .saved last noise g =>
    let phase := (last[v]?).getD true
    if 0.0 < noise then
      let (g, x) := RandomSource.fraction g
      (.saved last noise g, if x < noise then !phase else phase)
    else (.saved last noise g, phase)
  | .fixed => (.fixed, true)

end Phases

end ClauseLearning
