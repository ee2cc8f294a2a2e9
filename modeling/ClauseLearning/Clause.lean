import ClauseLearning.Failure

/-!
# Clauses

A clause is a disjunction of literals. The order of its literals carries no meaning but is kept: the
first two are the ones a propagator watches, and propagation swaps literals inside a clause. Input
and learnt clauses have one representation; `lbd` (the number of decision levels among the literals
when the clause was learnt) and `activity` guide the reduction of the clause database.
-/

namespace ClauseLearning

/-- A disjunction of literals. -/
structure Clause where
  literals : List Literal
  lbd : Nat
  activity : Float
  learnt : Bool
  deleted : Bool
deriving Repr

/-- No element is left that repeats another one. -/
theorem nodup_eraseDups {α : Type} [BEq α] [LawfulBEq α] (ls : List α) : ls.eraseDups.Nodup := by
  -- Taking the repetitions of the first element away leaves a shorter list.
  induction length : ls.length using Nat.strongRecOn generalizing ls with
  | _ n ih =>
    cases ls with
    | nil => exact List.nodup_nil
    | cons a rest =>
      subst length
      rw [List.eraseDups_cons, List.nodup_cons, List.mem_eraseDups]
      refine ⟨by simp, ih _ (Nat.lt_succ_of_le (List.length_filter_le ..)) _ rfl⟩

namespace Clause

/-- The first two literals side by side that have the same variable. -/
def neighbours? : List Literal → Option (Literal × Literal)
  | [] => none
  | [_] => none
  | a :: b :: rest => if a.var = b.var then some (a, b) else neighbours? (b :: rest)

/-- A variable that occurs with both signs: once the literals are sorted by their codes, the two are
side by side. -/
def clash? (literals : List Literal) : Option Variable :=
  (neighbours? (Literal.sort literals)).map fun pair => pair.1.var

/-- An input clause: later repetitions of a literal are dropped, and a variable with both signs is
refused. -/
def ofLiterals (literals : List Literal) : Except ClauseFault Clause :=
  let distinct := literals.eraseDups
  match clash? distinct with
  | some v => .error (.tautology v)
  | none => .ok ⟨distinct, 0, 0.0, false, false⟩

def ofLearnt (literals : List Literal) (lbd : Nat) : Clause :=
  ⟨literals, lbd, 0.0, true, false⟩

def size (c : Clause) : Nat :=
  c.literals.length

def isEmpty (c : Clause) : Bool :=
  c.literals.isEmpty

def isUnit (c : Clause) : Bool :=
  c.size == 1

/-- The literals in the order of their codes: equal for equal sets of distinct literals. -/
def key (c : Clause) : List Literal :=
  Literal.sort c.literals

/-- The literal at position `i`. -/
def get (c : Clause) (i : Nat) : Except Fault Literal :=
  match c.literals[i]? with
  | some l => .ok l
  | none => .error .outOfRange

/-- The clause with the literal at position `i` replaced. -/
def set (c : Clause) (i : Nat) (l : Literal) : Except Fault Clause :=
  if i < c.size then .ok { c with literals := c.literals.set i l } else .error .outOfRange

/-- The clause with the literals at positions `i` and `j` exchanged. -/
def swap (c : Clause) (i j : Nat) : Except Fault Clause := do
  let a ← c.get i
  let b ← c.get j
  (← c.set i b).set j a

def reorder (c : Clause) (literals : List Literal) : Clause :=
  { c with literals := literals }

def delete (c : Clause) : Clause :=
  { c with deleted := true }

def bump (c : Clause) (amount : Float) : Clause :=
  { c with activity := c.activity + amount }

def scale (c : Clause) (factor : Float) : Clause :=
  { c with activity := c.activity * factor }

def satisfiedBy (c : Clause) (value : Literal → Option Bool) : Bool :=
  c.literals.any fun l => value l == some true

/-- Equality of every component; activities are compared as numbers. -/
protected def beq (a b : Clause) : Bool :=
  a.literals == b.literals && a.lbd == b.lbd && a.activity == b.activity &&
    a.learnt == b.learnt && a.deleted == b.deleted

instance : BEq Clause := ⟨Clause.beq⟩

end Clause

end ClauseLearning
