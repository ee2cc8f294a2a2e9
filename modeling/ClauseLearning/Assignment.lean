import ClauseLearning.Model
import ClauseLearning.Table

/-!
# Values of the variables

One slot per variable, and slot 0 which no formula uses. The number of assigned variables is kept
beside the slots, so that "is every variable assigned" costs nothing.
-/

namespace ClauseLearning

/-- The current values: `none` where a variable is unassigned. -/
structure Assignment where
  slots : Array (Option Bool)
  numAssigned : Nat
deriving DecidableEq, Repr

namespace Assignment

/-- No variable of `1, …, numVars` is assigned. -/
def empty (numVars : Nat) : Assignment :=
  ⟨Array.replicate (numVars + 1) none, 0⟩

def numVars (a : Assignment) : Nat :=
  a.slots.size - 1

def slot (a : Assignment) (v : Variable) : Except Fault (Option Bool) :=
  lookup a.slots v

def assign (a : Assignment) (l : Literal) : Except Fault Assignment :=
  if h : l.var < a.slots.size then
    .ok ⟨a.slots.set l.var (some l.polarity) h, a.numAssigned + 1⟩
  else .error .outOfRange

/-- Takes the value of a variable away; nothing changes if it has none. -/
def unassign (a : Assignment) (v : Variable) : Except Fault Assignment :=
  if h : v < a.slots.size then
    if a.slots[v].isSome then .ok ⟨a.slots.set v none h, a.numAssigned - 1⟩ else .ok a
  else .error .outOfRange

def isAssigned (a : Assignment) (v : Variable) : Except Fault Bool :=
  (a.slot v).map Option.isSome

/-- Whether as many assignments were made as there are variables. -/
def allAssigned (a : Assignment) : Bool :=
  a.numAssigned == a.numVars

/-- The value of a variable; a variable without a slot has none. -/
def value? (a : Assignment) (v : Variable) : Option Bool :=
  (a.slots[v]?).join

def literalValue? (a : Assignment) (l : Literal) : Option Bool :=
  (a.value? l.var).map fun b => b == l.polarity

/-- The unassigned variables, in order. -/
def unassigned (a : Assignment) : List Variable :=
  (List.range' 1 a.numVars).filter fun v => (a.value? v).isNone

/-- The least unassigned variable. -/
def firstUnassigned? (a : Assignment) : Option Variable :=
  (List.range' 1 a.numVars).find? fun v => (a.value? v).isNone

/-- The model that reads unassigned variables as false. -/
def model (a : Assignment) : Except Fault Model :=
  Model.ofValues ((a.slots.extract 1 a.slots.size).map fun s => s == some true)

end Assignment

end ClauseLearning
