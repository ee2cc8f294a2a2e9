import ClauseLearning.Formula
import ClauseLearning.Trail

/-!
# Conflict analysis

From a clause that the current values make false, a clause is derived by resolution. The trail is
walked backwards; whenever the working clause holds the literal met, it is resolved with the clause
that forced this literal. The walk ends when one literal of the current level is left, the first
unique implication point. Its complement leads the learnt clause and is forced once the trail has
gone back.

The working clause is not built. A variable is marked when it enters the clause, literals of lower
levels are collected as they come, and of the current level only the number of literals is counted.
Variables fixed at level 0 never enter.

At the end a collected literal is dropped when the clause that forced it has no other variables than
marked ones and ones fixed at level 0.
-/

namespace ClauseLearning

/-- What follows from a conflict. -/
inductive Conflict where
  | ground
  | unit (literal : Literal)
  | learned (clause : Clause) (backjump : Nat)
deriving Repr

/-- The level to go back to; a conflict at level 0 has none. -/
def Conflict.backjump? : Conflict → Option Nat
  | .ground => none
  | .unit _ => some 0
  | .learned _ level => some level

/-- The marks, all clear between analyses, and what the last analysis has used: the variables in the
order in which they were marked, and the places of the clauses resolved. -/
structure Analyser where
  marks : Array Bool
  involved : Array Variable
  resolved : Array Nat
deriving DecidableEq, Repr

/-- An analysis under way: the literals of the current level that the working clause still holds are
counted, those of lower levels collected in reverse. -/
structure Walk where
  analyser : Analyser
  openCount : Nat
  lower : List Literal
deriving DecidableEq, Repr

namespace Walk

/-- Takes a literal into the working clause, unless it is the one resolved upon, has been taken
before or is fixed at level 0. -/
def absorb (t : Trail) (pivot : Option Variable) (w : Walk) (q : Literal) : Except Fault Walk :=
  if pivot = some q.var then .ok w
  else do
    let marked ← lookup w.analyser.marks q.var
    let level ← t.varLevel q.var
    if marked || level == 0 then return w
    let marks ← store w.analyser.marks q.var true
    let analyser :=
      { w.analyser with marks := marks, involved := w.analyser.involved.push q.var }
    if t.level ≤ level then return ⟨analyser, w.openCount + 1, w.lower⟩
    else return ⟨analyser, w.openCount, q :: w.lower⟩

/-- Takes literals into the working clause, in order. -/
def absorbAll (t : Trail) (pivot : Option Variable) : List Literal → Walk → Except Fault Walk
  | [], w => .ok w
  | q :: rest, w =>
    match w.absorb t pivot q with
    | .error fault => .error fault
    | .ok w => absorbAll t pivot rest w

/-- Resolves with the clause at a place, upon the variable `pivot` if there is one. -/
def resolveWith (f : Formula) (t : Trail) (place : Nat) (pivot : Option Variable) (w : Walk) :
    Except Fault Walk := do
  let c ← f.clause place
  absorbAll t pivot c.literals
    { w with analyser := { w.analyser with resolved := w.analyser.resolved.push place } }

/-- Takes a literal of the trail out of the working clause. -/
def release (w : Walk) (l : Literal) : Walk :=
  { w with
    analyser := { w.analyser with marks := w.analyser.marks.setIfInBounds l.var false }
    openCount := w.openCount - 1 }

/-- Walks backwards over the first `n` steps of the trail. The result is the literal of the trail
that is left alone in its level. -/
def back (f : Formula) (t : Trail) : Nat → Walk → Except Fault (Walk × Except Breach Literal)
  | 0, w => .ok (w, .error .ranOffTrail)
  | n + 1, w => do
    let l := (← lookup t.steps n).literal
    if !(← lookup w.analyser.marks l.var) then back f t n w
    else
      let w := w.release l
      if w.openCount = 0 then return (w, .ok l)
      match ← t.varReason l.var with
      | .decision => return (w, .error (.reachedDecision l w.openCount))
      | .clause place =>
        let w ← w.resolveWith f t place (some l.var)
        if w.openCount = 0 then return (w, .error (.noLiteralAtLevel place t.level))
        back f t n w

/-- Starts from the clause at a place and walks back over the whole trail. -/
def run (f : Formula) (t : Trail) (place : Nat) (w : Walk) :
    Except Fault (Walk × Except Breach Literal) := do
  let w ← w.resolveWith f t place none
  if w.openCount = 0 then return (w, .error (.noLiteralAtLevel place t.level))
  back f t t.size w

end Walk

namespace Analyser

/-- An analyser for the variables `1, …, numVars`. -/
def empty (numVars : Nat) : Analyser :=
  ⟨Array.replicate (numVars + 1) false, Array.empty, Array.empty⟩

def clear (a : Analyser) : Analyser :=
  { a with marks := a.involved.foldl (fun marks v => marks.setIfInBounds v false) a.marks }

/-- Whether every literal is of variable `v`, marked, or fixed at level 0. -/
def allCovered (t : Trail) (marks : Array Bool) (v : Variable) : List Literal → Except Fault Bool
  | [] => .ok true
  | q :: rest =>
    if q.var = v then allCovered t marks v rest
    else do
      if ← lookup marks q.var then allCovered t marks v rest
      else if (← t.varLevel q.var) = 0 then allCovered t marks v rest
      else return false

/-- Whether a literal of the learnt clause follows from the others. -/
def isRedundant (f : Formula) (t : Trail) (marks : Array Bool) (l : Literal) :
    Except Fault Bool := do
  match ← t.varReason l.var with
  | .decision => return false
  | .clause place => allCovered t marks l.var (← f.clause place).literals

/-- The literals that do not follow from the others. -/
def minimise (f : Formula) (t : Trail) (marks : Array Bool) :
    List Literal → Except Fault (List Literal)
  | [] => .ok []
  | l :: rest => do
    let redundant ← isRedundant f t marks l
    let kept ← minimise f t marks rest
    return if redundant then kept else l :: kept

/-- Exchanges the first element with the one at position `i`. -/
def swapFirst {α : Type} (i : Nat) : List α → List α
  | [] => []
  | a :: rest =>
    match i with
    | 0 => a :: rest
    | j + 1 =>
      match rest[j]? with
      | some b => b :: rest.set j a
      | none => a :: rest

def levels (t : Trail) : List Literal → Except Fault (List Nat)
  | [] => .ok []
  | l :: rest => do
    let level ← t.varLevel l.var
    let more ← levels t rest
    return level :: more

/-- The number of different levels, as a 32-bit word. -/
def countLevels (levels : List Nat) : Nat :=
  min levels.eraseDups.length 0xffffffff

/-- The conclusion from the asserting literal and the other literals of the learnt clause. The first
of those with the greatest level comes second in the clause, and its level is the one to go back
to. -/
def conclude (t : Trail) (asserting : Literal) (others : List Literal) :
    Except Fault Conflict := do
  let depths ← levels t others
  match depths.max? with
  | none => return .unit asserting
  | some deepest =>
    let own ← t.varLevel asserting.var
    let literals := asserting :: swapFirst (depths.idxOf deepest) others
    return .learned (Clause.ofLearnt literals (countLevels (own :: depths))) deepest

/-- Analyses the conflict with the clause at a place. -/
def analyse (a : Analyser) (f : Formula) (t : Trail) (place : Nat) :
    Except Fault (Analyser × Except Breach Conflict) :=
  let a : Analyser := ⟨a.marks, Array.empty, Array.empty⟩
  if t.level = 0 then .ok (a, .ok .ground)
  else do
    let (w, outcome) ← Walk.run f t place ⟨a, 0, []⟩
    match outcome with
    | .error breach => return (w.analyser.clear, .error breach)
    | .ok l =>
      let others ← minimise f t w.analyser.marks w.lower.reverse
      let conflict ← conclude t (-l) others
      return (w.analyser.clear, .ok conflict)

end Analyser

end ClauseLearning
