import ClauseLearning.Options
import ClauseLearning.Propagation
import ClauseLearning.Rank

/-!
# The database of learnt clauses

Every conflict adds a learnt clause. The database knows the learnt clauses by their literals, so a
clause that is learnt twice is stored once: the stored clause takes over the new order of literals.

Under the policy `byLbd` the database is reduced when it has grown past a limit. Clauses that are
the reason of an assignment are locked and stay, and so do clauses with literals of at most two
levels. Of the others, up to half as many as there are unlocked clauses are removed, those with most
levels first, then the least active, then the oldest. The clauses that stay move up and keep their
order. Under the policy `keepAll` nothing is ever removed.
-/

namespace ClauseLearning

/-- The state of a database that is reduced from time to time. -/
structure Reduction where
  limit : Nat
  increment : Float
  removed : Nat

/-- The learnt clauses by their sorted literals, and how their number is kept down, if it is. -/
structure Database where
  index : Std.TreeMap (List Literal) Nat
  reduction : Option Reduction

/-- Names a policy for the database. -/
inductive DatabaseKind where
  | keepAll
  | byLbd
deriving DecidableEq, Repr

/-- A clause that may be removed. -/
structure Candidate where
  place : Nat
  lbd : Nat
  rank : UInt64
deriving DecidableEq, Repr

/-- Whether `a` is removed before `b`: more levels first, then less activity, then the older. -/
def Candidate.before (a b : Candidate) : Bool :=
  b.lbd < a.lbd ||
    (a.lbd == b.lbd && (a.rank < b.rank || (a.rank == b.rank && a.place ≤ b.place)))

namespace Reduction

/-- By this factor the increment grows with each conflict. -/
def decay : Float := 0.999

/-- Beyond this size of the increment, activities are scaled down. -/
def rescaleLimit : Float := 1e20

/-- Clauses with literals of at most this many levels are never removed. -/
def keptLbd : Nat := 2

def nextLimit (limit : Nat) : Nat :=
  limit + (limit / 10 + 1)

/-- The greatest limit with a 64-bit word as its next limit. -/
def greatestLimit : Nat := 0xe8ba2e8ba2e8ba2d

/-- The places of the learnt clauses that are not locked. -/
def unlocked (f : Formula) (t : Trail) : List (Nat × Clause) :=
  f.learntRegion.filter fun entry => !t.locks entry.1

def candidates (f : Formula) (t : Trail) : List Candidate :=
  ((unlocked f t).filter fun entry => decide (keptLbd < entry.2.lbd)).map fun entry =>
    ⟨entry.1, entry.2.lbd, Rank.ofBits entry.2.activity⟩

def selected (f : Formula) (t : Trail) : List Nat :=
  let all := candidates f t
  ((sortBy Candidate.before all).take (min ((unlocked f t).length / 2) all.length)).map
    Candidate.place

/-- The learnt clauses that stay, each with its old place. -/
def survivors (f : Formula) (gone : List Nat) : List (Nat × Clause) :=
  f.learntRegion.filter fun entry => !gone.contains entry.1

/-- The formula without the clauses at the given learnt places. -/
def compact (f : Formula) (gone : List Nat) : Formula :=
  { f with
    clauses := (f.clauses.take f.inputCount) ++ ((survivors f gone).map Prod.snd).toArray }

/-- The new place of a learnt clause that stays. -/
def newPlace (f : Formula) (gone : List Nat) (old : Nat) : Option Nat :=
  (((survivors f gone).map Prod.fst).idxOf? old).map fun i => f.inputCount + i

end Reduction

namespace Database

/-- The learnt clauses of a formula by their sorted literals. -/
def indexOf (f : Formula) : Std.TreeMap (List Literal) Nat :=
  f.learntClauses.foldl (fun index entry => index.insert entry.2.key entry.1) ∅

def make (kind : DatabaseKind) (f : Formula) (options : Options) : Database :=
  match kind with
  | .keepAll => ⟨indexOf f, none⟩
  | .byLbd => ⟨indexOf f, some ⟨options.learntLimit, 1.0, 0⟩⟩

def removed (d : Database) : Nat :=
  (d.reduction.map Reduction.removed).getD 0

/-- The number of learnt clauses above which the database is reduced. -/
def limit? (d : Database) : Option Nat :=
  d.reduction.map Reduction.limit

/-- Stores a learnt clause and has the propagator look after it. The result has its place, which is
that of the stored clause with the same literals if there is one. -/
def insert (d : Database) (f : Formula) (p : Propagator) (c : Clause) :
    Except Fault (Database × Formula × Propagator × Nat) :=
  let key := c.key
  match d.index[key]? with
  | some place => do
    let stored ← f.clause place
    let reordered := stored.reorder c.literals
    let p ← p.remove stored place
    let f ← f.setClause place reordered
    let p ← p.add reordered place
    return (d, f, p, place)
  | none => do
    let place := f.size
    let p ← p.add c place
    return ({ d with index := d.index.insert key place }, f.push c, p, place)

/-- Takes note of a conflict: clauses used later count for more. -/
def onConflict (d : Database) (f : Formula) : Database × Formula :=
  match d.reduction with
  | none => (d, f)
  | some r =>
    let increment := r.increment / Reduction.decay
    if Reduction.rescaleLimit < increment then
      let scaled := f.clauses.mapIdx fun i c =>
        if i < f.inputCount then c else c.scale (1.0 / Reduction.rescaleLimit)
      ({ d with reduction := some { r with increment := increment / Reduction.rescaleLimit } },
        { f with clauses := scaled })
    else ({ d with reduction := some { r with increment := increment } }, f)

/-- Raises the activity of the learnt clauses at the given places. -/
def bumpAll (increment : Float) : List Nat → Formula → Except Fault Formula
  | [], f => .ok f
  | place :: rest, f =>
    if place < f.inputCount then bumpAll increment rest f
    else do
      let c ← f.clause place
      bumpAll increment rest (← f.setClause place (c.bump increment))

/-- Takes note of the clauses used in an analysis. -/
def bumps (d : Database) (f : Formula) (places : List Nat) : Except Fault Formula :=
  match d.reduction with
  | none => .ok f
  | some r => bumpAll r.increment places f

/-- Whether the learnt clauses have grown past the limit. -/
def shouldReduce (d : Database) (f : Formula) : Bool :=
  match d.reduction with
  | none => false
  | some r => r.limit < f.size - f.inputCount

/-- Removes the clauses at the given learnt places, and renews everything that refers to clauses. -/
def remove (d : Database) (f : Formula) (t : Trail) (p : Propagator) (gone : List Nat) :
    Except Fault (Database × Formula × Trail × Propagator) := do
  let kept := Reduction.compact f gone
  let p ← (p.dropFrom f.inputCount).addAll kept.learntRegion
  return ({ d with index := indexOf kept }, kept, t.remap (Reduction.newPlace f gone), p)

/-- Reduces the database. The result has the number of clauses removed. -/
def reduce (d : Database) (f : Formula) (t : Trail) (p : Propagator) :
    Except Fault (Database × Formula × Trail × Propagator × Nat) :=
  match d.reduction with
  | none => .ok (d, f, t, p, 0)
  | some r =>
    let gone := Reduction.selected f t
    let next : Reduction :=
      { r with limit := Reduction.nextLimit r.limit, removed := r.removed + gone.length }
    if gone.isEmpty then .ok ({ d with reduction := some next }, f, t, p, 0)
    else do
      let (d, f, t, p) ← d.remove f t p gone
      return ({ d with reduction := some next }, f, t, p, gone.length)

end Database

end ClauseLearning
