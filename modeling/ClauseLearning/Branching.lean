import ClauseLearning.Branching.Activity
import ClauseLearning.Random

/-!
# Branching orders

A branching order picks the variable to decide next: the most active one, the smallest one, or any
one at random.
-/

namespace ClauseLearning

/-- An order in which variables are picked. -/
inductive Branching (G : Type) where
  | activity (order : ActivityOrder)
  | fixed
  | random (source : G)

/-- Names a branching order. -/
inductive BranchingKind where
  | activity
  | fixed
  | random
deriving DecidableEq, Repr

namespace Branching

variable {G : Type}

/-- A new order over the variables `1, …, numVars`. -/
def make [RandomSource G] (kind : BranchingKind) (numVars : Nat) (options : Options) :
    Branching G :=
  match kind with
  | .activity => .activity (ActivityOrder.make numVars options)
  | .fixed => .fixed
  | .random => .random (RandomSource.ofSeed options.seed)

def pick [RandomSource G] (b : Branching G) (values : Assignment) :
    Except Fault (Branching G × Option Variable) :=
  match b with
  | .activity o => (o.pick values).map fun (o, v) => (.activity o, v)
  | .fixed => .ok (.fixed, values.firstUnassigned?)
  | .random g =>
    let candidates := values.unassigned.toArray
    if candidates.isEmpty then .ok (.random g, none)
    else
      let (g, i) := RandomSource.below g candidates.size
      (lookup candidates i).map fun v => (.random g, some v)

/-- Takes note of the variables that a conflict involves. -/
def bumps (b : Branching G) (vars : List Variable) : Except Fault (Branching G) :=
  match b with
  | .activity o => (o.bumps vars).map .activity
  | .fixed => .ok .fixed
  | .random g => .ok (.random g)

def decay (b : Branching G) : Branching G :=
  match b with
  | .activity o => .activity o.decayAll
  | .fixed => .fixed
  | .random g => .random g

/-- Takes note of a variable that has become unassigned. -/
def onUnassign (b : Branching G) (v : Variable) : Except Fault (Branching G) :=
  match b with
  | .activity o => (o.enqueue v).map .activity
  | .fixed => .ok .fixed
  | .random g => .ok (.random g)

end Branching

end ClauseLearning
