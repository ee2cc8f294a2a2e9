import ClauseLearning.Assignment

/-!
# The trail

Every assignment is appended to the trail with its decision level and its reason. Levels never
decrease along the trail; each decision opens a new level, and level 0 holds what follows from the
formula alone. Going back to a level pops whole levels off the end.

The trail carries the values that its literals give to the variables. For each variable it also
remembers the level and the position of the last assignment; both outlive the assignment.
-/

namespace ClauseLearning

/-- Why a literal was assigned: it was chosen, or the clause at a place forced it. -/
inductive Reason where
  | decision
  | clause (place : Nat)
deriving DecidableEq, Repr, Inhabited

/-- The place of the clause that forced an assignment. -/
def Reason.clause? : Reason → Option Nat
  | .decision => none
  | .clause i => some i

/-- The reason after clauses have moved: `moved` gives the new place of a clause, if it has one. -/
def Reason.remap (moved : Nat → Option Nat) : Reason → Reason
  | .decision => .decision
  | .clause i => .clause ((moved i).getD i)

/-- An assignment on the trail. -/
structure Step where
  literal : Literal
  level : Nat
  reason : Reason
deriving DecidableEq, Repr, Inhabited

/-- The assignments in the order in which they were made. Steps before `head` have been propagated,
and `levelStarts` holds the position at which each level above 0 starts. -/
structure Trail where
  steps : Array Step
  head : Nat
  levelOf : Array Nat
  positionOf : Array Nat
  levelStarts : Array Nat
  values : Assignment
deriving DecidableEq, Repr

namespace Trail

/-- The trail without assignments over the variables `1, …, numVars`. -/
def empty (numVars : Nat) : Trail where
  steps := Array.empty
  head := 0
  levelOf := Array.replicate (numVars + 1) 0
  positionOf := Array.replicate (numVars + 1) 0
  levelStarts := Array.empty
  values := Assignment.empty numVars

def level (t : Trail) : Nat :=
  t.levelStarts.size

def size (t : Trail) : Nat :=
  t.steps.size

def varLevel (t : Trail) (v : Variable) : Except Fault Nat :=
  lookup t.levelOf v

def varPosition (t : Trail) (v : Variable) : Except Fault Nat :=
  lookup t.positionOf v

/-- The reason of the step at the position of a variable's last assignment. -/
def varReason (t : Trail) (v : Variable) : Except Fault Reason := do
  return (← lookup t.steps (← t.varPosition v)).reason

def push (t : Trail) (l : Literal) (reason : Reason) : Except Fault Trail := do
  let values ← t.values.assign l
  let levelOf ← store t.levelOf l.var t.levelStarts.size
  let positionOf ← store t.positionOf l.var t.steps.size
  return { t with
    steps := t.steps.push ⟨l, t.levelStarts.size, reason⟩
    levelOf := levelOf
    positionOf := positionOf
    values := values }

def openLevel (t : Trail) : Trail :=
  { t with levelStarts := t.levelStarts.push t.steps.size }

def pushDecision (t : Trail) (l : Literal) : Except Fault Trail :=
  t.openLevel.push l .decision

/-- Takes the values of literals away, in order. -/
def unassignAll (values : Assignment) : List Literal → Except Fault Assignment
  | [] => .ok values
  | l :: rest => do unassignAll (← values.unassign l.var) rest

/-- Goes back to a level: all later assignments are taken away. The result lists their literals, the
latest first. -/
def backtrackTo (t : Trail) (target : Nat) : Except Fault (Trail × List Literal) :=
  if t.level < target then .error (.breach (.backjumpAbove target t.level))
  else match t.levelStarts[target]? with
    | none => .ok (t, [])
    | some start =>
      if t.steps.size < start then .error .outOfRange
      else do
        let popped := ((t.steps.extract start t.steps.size).toList.map Step.literal).reverse
        let values ← unassignAll t.values popped
        return ({ t with
          steps := t.steps.take start
          head := min t.head start
          levelStarts := t.levelStarts.take target
          values := values }, popped)

/-- Whether the clause at a place is the reason of a step. -/
def locks (t : Trail) (place : Nat) : Bool :=
  t.steps.any fun s => s.reason == .clause place

/-- The places of the clauses that are the reason of a step, each once and in order. -/
def lockedClauses (t : Trail) : List Nat :=
  let places := t.steps.toList.filterMap fun s => s.reason.clause?
  (sortBy (fun a b => decide (a ≤ b)) places).eraseDups

def remap (t : Trail) (moved : Nat → Option Nat) : Trail :=
  { t with steps := t.steps.map fun s => { s with reason := s.reason.remap moved } }

/-- The literals with which the levels above 0 start. -/
def decisions (t : Trail) : Except Fault (List Literal) :=
  t.levelStarts.toList.mapM fun i => (lookup t.steps i).map Step.literal

/-- Follows the steps from position `i` on at level `current`. Each decision has to stand where the
next level starts, and each step has to carry the level reached. The result is the last level. -/
def lastLevelFrom (starts : Array Nat) (i current : Nat) : List Step → Option Nat
  | [] => some current
  | s :: rest =>
    let decided := s.reason == .decision
    let reached := if decided then current + 1 else current
    if decided && starts[current]? != some i then none
    else if s.level != reached then none
    else lastLevelFrom starts (i + 1) reached rest

/-- Whether the levels of the steps and the starts of the levels agree. -/
def isConsistent (t : Trail) : Bool :=
  lastLevelFrom t.levelStarts 0 0 t.steps.toList == some t.level

end Trail

end ClauseLearning
