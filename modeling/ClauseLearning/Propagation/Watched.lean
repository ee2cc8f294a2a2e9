import ClauseLearning.Formula
import ClauseLearning.Trail

/-!
# Propagation with two watched literals

A clause of two or more literals is listed under its first two literals, the ones it watches. It is
looked at only when one of them becomes false. Then it either watches another literal that is not
false, or it forces the other watched literal, or it is the conflict.

A step of the trail is propagated by visiting the clauses listed under the complement of its
literal, in the order of the list. A clause that goes on watching this literal keeps its place in
the list; a clause that watches another literal is appended to the list of that literal.
-/

namespace ClauseLearning

/-- For each literal, by its code, the places of the clauses that watch it. -/
structure Watches where
  lists : Array (Array Nat)
deriving DecidableEq, Repr

namespace Watches

/-- No clause is watched; there is a list for each literal of `0, …, numVars`. -/
def empty (numVars : Nat) : Watches :=
  ⟨Array.replicate (2 * (numVars + 1)) Array.empty⟩

def list (w : Watches) (l : Literal) : Except Fault (Array Nat) :=
  lookup w.lists l.index

def setList (w : Watches) (l : Literal) (places : Array Nat) : Except Fault Watches :=
  if h : l.index < w.lists.size then .ok ⟨w.lists.set l.index places h⟩ else .error .outOfRange

def modifyList (w : Watches) (l : Literal) (change : Array Nat → Array Nat) :
    Except Fault Watches :=
  if l.index < w.lists.size then .ok ⟨w.lists.modify l.index change⟩ else .error .outOfRange

/-- Lists a clause under its first two literals; a shorter clause is not listed. -/
def add (w : Watches) (c : Clause) (place : Nat) : Except Fault Watches :=
  match c.literals with
  | a :: b :: _ => do
    (← w.modifyList a fun places => places.push place).modifyList b fun places => places.push place
  | _ => .ok w

/-- Takes a clause off the lists of its first two literals. -/
def remove (w : Watches) (c : Clause) (place : Nat) : Except Fault Watches :=
  match c.literals with
  | a :: b :: _ => do
    (← w.modifyList a fun places => places.filter (· != place)).modifyList b
      fun places => places.filter (· != place)
  | _ => .ok w

/-- Takes all places from `start` on off the lists. -/
def dropFrom (w : Watches) (start : Nat) : Watches :=
  ⟨w.lists.map fun places => places.filter fun i => decide (i < start)⟩

/-- Lists clauses, each with its place. -/
def addAll (w : Watches) : List (Nat × Clause) → Except Fault Watches
  | [] => .ok w
  | (place, c) :: rest => do (← w.add c place).addAll rest

/-- Lists the clauses of a formula that are not marked as deleted. -/
def ofFormula (f : Formula) : Except Fault Watches :=
  (empty f.numVars).addAll
    ((f.clauses.toList.mapIdx fun i c => (i, c)).filter fun entry => !entry.2.deleted)

/-- The literals with clauses on their lists, in the order of their codes. -/
def nonempty (w : Watches) : List (Literal × List Nat) :=
  (w.lists.toList.mapIdx fun code places =>
    (Literal.mk (code / 2) (code % 2 == 0), places.toList)).filter fun entry => !entry.2.isEmpty

end Watches

/-- What propagation works on, with the number of assignments it has made. -/
structure WatchRun where
  watches : Watches
  trail : Trail
  formula : Formula
  count : Nat

/-- What becomes of a visited clause: it leaves the list, it stays, or it stays and is the
conflict. -/
inductive Visit where
  | leaves
  | stays
  | conflicts
deriving DecidableEq, Repr

namespace WatchRun

/-- Splits a list of literals at the first that is not false. -/
def splitAtWatchable (values : Assignment) :
    List Literal → Option (List Literal × Literal × List Literal)
  | [] => none
  | l :: rest =>
    if values.literalValue? l != some false then some ([], l, rest)
    else
      (splitAtWatchable values rest).map fun (before, found, after) => (l :: before, found, after)

/-- Visits the clause at `place`, listed under the literal `falseLit` that has become false. -/
def visit (s : WatchRun) (falseLit : Literal) (place : Nat) : Except Fault (WatchRun × Visit) := do
  let c ← s.formula.clause place
  if c.deleted then return (s, .leaves)
  match c.literals with
  | first :: second :: rest =>
    let other := if first = falseLit then second else first
    let watched := if first = falseLit then first else second
    if s.trail.values.literalValue? other = some true then
      let formula ← s.formula.setClause place (c.reorder (other :: watched :: rest))
      return ({ s with formula := formula }, .stays)
    match splitAtWatchable s.trail.values rest with
    | some (before, found, after) =>
      let formula ←
        s.formula.setClause place (c.reorder (other :: found :: (before ++ watched :: after)))
      let watches ← s.watches.modifyList found fun places => places.push place
      return ({ s with formula := formula, watches := watches }, .leaves)
    | none =>
      let formula ← s.formula.setClause place (c.reorder (other :: watched :: rest))
      if s.trail.values.literalValue? other = some false then
        return ({ s with formula := formula }, .conflicts)
      let trail ← s.trail.push other (.clause place)
      return ({ s with formula := formula, trail := trail, count := s.count + 1 }, .stays)
  | _ => .error .outOfRange

/-- Visits clauses in order up to a conflict. The result has the places that stay listed, those not
visited included, and the place of the conflict. -/
def visitAll (falseLit : Literal) :
    List Nat → Array Nat → WatchRun → Except Fault (WatchRun × Array Nat × Option Nat)
  | [], kept, s => .ok (s, kept, none)
  | place :: rest, kept, s =>
    match s.visit falseLit place with
    | .error fault => .error fault
    | .ok (s, .leaves) => visitAll falseLit rest kept s
    | .ok (s, .stays) => visitAll falseLit rest (kept.push place) s
    | .ok (s, .conflicts) => .ok (s, kept.push place ++ rest.toArray, some place)

/-- Propagates one literal that has become false. Its list is empty while its clauses are
visited. -/
def propagateFalse (s : WatchRun) (falseLit : Literal) : Except Fault (WatchRun × Option Nat) := do
  let places ← s.watches.list falseLit
  let watches ← s.watches.setList falseLit Array.empty
  let (s, kept, conflict) ←
    visitAll falseLit places.toList Array.empty { s with watches := watches }
  let watches ← s.watches.setList falseLit kept
  return ({ s with watches := watches }, conflict)

/-- Propagates at most `fuel` steps of the trail, up to a conflict. -/
def propagateFor : Nat → WatchRun → Except Fault (WatchRun × Option Nat)
  | 0, s => .ok (s, none)
  | fuel + 1, s =>
    match s.trail.steps[s.trail.head]? with
    | none => .ok (s, none)
    | some step =>
      match propagateFalse { s with trail := { s.trail with head := s.trail.head + 1 } }
          (-step.literal) with
      | .error fault => .error fault
      | .ok (s, some place) => .ok (s, some place)
      | .ok (s, none) => propagateFor fuel s

/-- Propagates all steps of the trail, up to a conflict. Every step beyond those already on the
trail gives a value to a variable that had none, so the number of steps is bounded by the steps that
wait and the slots for values. -/
def propagate (s : WatchRun) : Except Fault (WatchRun × Option Nat) :=
  propagateFor ((s.trail.size - s.trail.head) + s.trail.values.slots.size) s

end WatchRun

end ClauseLearning
