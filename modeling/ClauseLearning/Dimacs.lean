import ClauseLearning.Formula
import ClauseLearning.Text.Blank
import ClauseLearning.Text.Lines
import ClauseLearning.Word

/-!
# The DIMACS format

The text is read line by line, and what counts is the first character that is not blank:

* `%` ends the data, whatever follows;
* `c` starts a comment line;
* `p` starts a problem line `p cnf VARIABLES CLAUSES`. The number of variables counts for variables
  that no clause uses; the number of clauses may be missing and need not be right. Of several
  problem lines the last counts;
* any other line holds numbers. Each 0 ends a clause, which may begin lines earlier. The last clause
  may lack its 0 if it has literals.

Writing gives one problem line and one line for each input clause.
-/

namespace ClauseLearning.Dimacs

/-! ### Writing -/

/-- A clause as a line of numbers, ended by 0. -/
def clauseLine (c : Clause) : String :=
  String.join (c.literals.map fun l => l.text ++ " ") ++ "0\n"

def write (f : Formula) : String :=
  "p cnf " ++ toString f.numVars ++ " " ++ toString f.inputCount ++ "\n" ++
    String.join (f.inputClauses.map clauseLine)

/-! ### Reading -/

/-- The greatest signed number that a token can be. -/
def literalMax : Nat := 0x7fffffff

/-- What has been read so far. The clause begun and the clauses finished are kept in reverse. -/
structure Draft where
  declared : Option Nat
  finished : List (List Int)
  begun : List Int
deriving DecidableEq, Repr

def Draft.empty : Draft :=
  ⟨none, [], []⟩

/-- Takes one number: 0 ends the clause. -/
def Draft.take (d : Draft) (z : Int) : Draft :=
  if z = 0 then { d with finished := d.begun.reverse :: d.finished, begun := [] }
  else { d with begun := z :: d.begun }

def readNumber (token : List Char) : Except ParseFault Int :=
  match Text.readInteger literalMax token with
  | .error cause => .error (.literal (String.ofList token) cause)
  | .ok z =>
    if z = -((literalMax : Int) + 1) then .error (.literalOutOfRange (String.ofList token))
    else .ok z

def Draft.takeTokens (d : Draft) : List (List Char) → Except ParseFault Draft
  | [] => .ok d
  | token :: rest =>
    match readNumber token with
    | .error cause => .error cause
    | .ok z => (d.take z).takeTokens rest

/-- The number of clauses in a problem line has to be a number if it is there. -/
def checkClauseCount : List (List Char) → Except ParseFault Unit
  | [] => .ok ()
  | count :: _ =>
    match Text.readNatural Word.greatest count with
    | .error cause => .error (.clauseCount (String.ofList count) cause)
    | .ok _ => .ok ()

/-- The number of variables that a problem line declares, given the words after the first. -/
def readProblem : List (List Char) → Except ParseFault Nat
  | [] => .error (.format none)
  | format :: rest =>
    if format = ['c', 'n', 'f'] then
      match rest with
      | [] => .error .missingVariableCount
      | count :: more =>
        match Text.readNatural Word.greatest count with
        | .error cause => .error (.variableCount (String.ofList count) cause)
        | .ok n => (checkClauseCount more).map fun _ => n
    else .error (.format (some (String.ofList format)))

/-- What a line is, judged by its first character that is not blank. -/
inductive Line where
  | stop
  | comment
  | problem (words : List (List Char))
  | numbers (tokens : List (List Char))
deriving DecidableEq, Repr

def Line.ofText (text : List Char) : Line :=
  match Text.dropBlank text with
  | '%' :: _ => .stop
  | 'c' :: _ => .comment
  | 'p' :: rest => .problem ((Text.words ('p' :: rest)).drop 1)
  | rest => .numbers (Text.words rest)

/-- Takes the lines in order, the first of them with the given number, up to the end of the data. A
line counts as text only when it is reached. -/
def Draft.takeLines (d : Draft) (number : Nat) : List (List UInt8) → Except Failure Draft
  | [] => .ok d
  | bytes :: rest =>
    match Text.decode? bytes with
    | none => .error (.input .notText)
    | some text =>
      match Line.ofText text with
      | .stop => .ok d
      | .comment => d.takeLines (number + 1) rest
      | .problem words =>
        match readProblem words with
        | .error cause => .error (.parse number cause)
        | .ok n => { d with declared := some n }.takeLines (number + 1) rest
      | .numbers tokens =>
        match d.takeTokens tokens with
        | .error cause => .error (.parse number cause)
        | .ok next => next.takeLines (number + 1) rest

/-- The clauses read, the last one also without its final 0. -/
def Draft.clauses (d : Draft) : List (List Int) :=
  if d.begun.isEmpty then d.finished.reverse else (d.begun.reverse :: d.finished).reverse

/-- The formula read: the variables are those declared, and more if more are used. -/
def Draft.formula (d : Draft) : Except Failure Formula :=
  Formula.withVars (max (d.declared.getD 0) (Formula.greatestVar d.clauses)) d.clauses

def read (bytes : List UInt8) : Except Failure Formula := do
  (← Draft.empty.takeLines 1 (Text.lines bytes)).formula

def readText (text : String) : Except Failure Formula :=
  read text.toUTF8.data.toList

end ClauseLearning.Dimacs
