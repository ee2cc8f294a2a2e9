import ClauseLearning.Formula
import ClauseLearning.Trail

/-!
# Propagation by scanning

The clauses are gone through in order, again and again, until a whole pass changes nothing or a
clause has only false literals. Assignments made in a pass count for the clauses after it.
-/

namespace ClauseLearning

/-- What a clause asks for under the current values. -/
inductive ClauseStatus where
  | satisfied
  | falsified
  | unit (literal : Literal)
  | unresolved
deriving DecidableEq, Repr

namespace ClauseStatus

/-- The status of the remaining literals when those before have none true and `free` of them, the
last of which is `last`, are unassigned. -/
def ofFrom (values : Assignment) (free : Nat) (last : Option Literal) :
    List Literal → ClauseStatus
  | [] =>
    match free, last with
    | 0, _ => .falsified
    | 1, some l => .unit l
    | _, _ => .unresolved
  | l :: rest =>
    match values.literalValue? l with
    | some true => .satisfied
    | some false => ofFrom values free last rest
    | none => ofFrom values (free + 1) (some l) rest

def of (values : Assignment) (c : Clause) : ClauseStatus :=
  ofFrom values 0 none c.literals

end ClauseStatus

/-- What scanning changes: the trail, with the number of assignments made. -/
structure Scan where
  trail : Trail
  count : Nat

namespace Scan

/-- Goes through the clauses once, the first of them at place `place`, up to a conflict. -/
def pass : List Clause → Nat → Scan → Except Fault (Scan × Option Nat)
  | [], _, s => .ok (s, none)
  | c :: rest, place, s =>
    if c.deleted || c.isEmpty then pass rest (place + 1) s
    else
      match ClauseStatus.of s.trail.values c with
      | .falsified => .ok (s, some place)
      | .unit l =>
        match s.trail.push l (.clause place) with
        | .error fault => .error fault
        | .ok trail => pass rest (place + 1) ⟨trail, s.count + 1⟩
      | .satisfied => pass rest (place + 1) s
      | .unresolved => pass rest (place + 1) s

def finish (s : Scan) : Scan :=
  { s with trail := { s.trail with head := s.trail.steps.size } }

/-- Makes at most `fuel` passes. -/
def passes (clauses : List Clause) : Nat → Scan → Except Fault (Scan × Option Nat)
  | 0, s => .ok (s.finish, none)
  | fuel + 1, s =>
    match pass clauses 0 s with
    | .error fault => .error fault
    | .ok (next, some place) => .ok (next.finish, some place)
    | .ok (next, none) =>
      if next.count = s.count then .ok (next.finish, none) else passes clauses fuel next

/-- Scans until nothing changes or a clause is false. Nothing is done while no step waits. Every
pass but the last gives a value to a variable that had none, so their number is bounded by the
slots. -/
def propagate (clauses : List Clause) (s : Scan) : Except Fault (Scan × Option Nat) :=
  if s.trail.size ≤ s.trail.head then .ok (s, none)
  else passes clauses (s.trail.values.slots.size + 1) s

end Scan

end ClauseLearning
