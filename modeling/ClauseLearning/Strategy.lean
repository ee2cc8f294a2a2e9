import ClauseLearning.Branching
import ClauseLearning.Database
import ClauseLearning.Phase
import ClauseLearning.Propagation
import ClauseLearning.Restart

/-!
# Strategies and their names

A search is put together from five strategies. Each kind of strategy has a table of names: the
keyword by which it is asked for, the label under which it is shown, which is the keyword unless
said otherwise, and the strategy taken when none is asked for.
-/

namespace ClauseLearning

/-- The names of the strategies of one kind, in the order in which they are listed. -/
structure Naming (α : Type) where
  all : List α
  keyword : α → String
  label : α → String := keyword
  standard : α

namespace Naming

variable {α : Type}

/-- The keywords, in order. -/
def keywords (n : Naming α) : List String :=
  n.all.map n.keyword

/-- ASCII letters in lower case; other characters stay. -/
def foldCase (text : String) : String :=
  text.map Char.toLower

/-- The strategy with a keyword, whose case may be ignored. -/
def find? (n : Naming α) (ignoreCase : Bool) (name : String) : Option α :=
  n.all.find? fun a =>
    if ignoreCase then foldCase (n.keyword a) == foldCase name else n.keyword a == name

end Naming

def propagatorNames : Naming PropagatorKind where
  all := [.watched, .scan]
  keyword
    | .watched => "watched-literals"
    | .scan => "unit-search"
  standard := .watched

def branchingNames : Naming BranchingKind where
  all := [.activity, .fixed, .random]
  keyword
    | .activity => "vsids"
    | .fixed => "fixed-order"
    | .random => "random-order"
  standard := .activity

def phaseNames : Naming PhaseKind where
  all := [.saved, .fixed]
  keyword
    | .saved => "saved-phases"
    | .fixed => "fixed-phase"
  standard := .saved

def restarterNames : Naming RestarterKind where
  all := [.luby, .geometric, .fixed, .never]
  keyword
    | .luby => "luby"
    | .geometric => "geometric"
    | .fixed => "fixed"
    | .never => "never"
  standard := .luby

/-- The names of the database policies, which are shown in a shorter form. -/
def databaseNames : Naming DatabaseKind where
  all := [.keepAll, .byLbd]
  keyword
    | .keepAll => "no-clause-management"
    | .byLbd => "lbd-clause-management"
  label
    | .keepAll => "none"
    | .byLbd => "lbd"
  standard := .byLbd

/-- A choice of all five strategies. -/
structure Strategies where
  propagator : PropagatorKind
  branching : BranchingKind
  phase : PhaseKind
  restarter : RestarterKind
  database : DatabaseKind
deriving DecidableEq, Repr

namespace Strategies

def standard : Strategies where
  propagator := propagatorNames.standard
  branching := branchingNames.standard
  phase := phaseNames.standard
  restarter := restarterNames.standard
  database := databaseNames.standard

def plain : Strategies where
  propagator := .scan
  branching := .fixed
  phase := .fixed
  restarter := .never
  database := .keepAll

end Strategies

end ClauseLearning
