import ClauseLearning.CommandLine.Arguments
import ClauseLearning.CommandLine.Report
import ClauseLearning.Dimacs
import ClauseLearning.Search

/-!
# Running a request

A request is carried out on the contents of the files it names, which are read outside. Each formula
is parsed, solved and reported. In a directory the entries are taken in the order of their names,
byte by byte, directories among them; a file that fails is reported and the next one taken.
-/

namespace ClauseLearning.CommandLine

/-- What a path leads to. -/
inductive Source where
  | failed (reason : String)
  | file (content : List UInt8)
  | directory (entries : List (String × Source))

/-- What a run prints on its two channels, and its exit code. -/
structure Output where
  out : List String
  err : List String
  code : Nat
deriving DecidableEq, Repr

def failureCode : Nat := 1

def Output.silent (code : Nat) : Output :=
  ⟨[], [], code⟩

/-! ### Solving -/

/-- The duration of a number of seconds in nanoseconds, rounded to the nearest, a half to even. -/
def nanoseconds (seconds : Float) : Except DurationFault Nat :=
  match Decimal.Binary64.ofFloat seconds with
  | .nan => .error .tooBigOrNan
  | .infinite negative => .error (if negative then .negative else .tooBigOrNan)
  | .finite negative mantissa exponent =>
    if negative && mantissa != 0 then .error .negative
    else if mantissa * Nat.pow 2 exponent.toNat < Word.count * Nat.pow 2 (-exponent).toNat then
      .ok (Decimal.unitsOf 9 mantissa exponent)
    else .error .tooBigOrNan

/-- The options of a search with the given settings. -/
def Settings.options (s : Settings) : Except Failure Options := do
  let timeLimit ←
    match s.timeLimit with
    | none => .ok none
    | some seconds =>
      match nanoseconds seconds with
      | .error cause => .error (.invalidOption (.timeLimit seconds cause))
      | .ok n => .ok (some n)
  return { Options.standard with
    activityDecay := s.activityDecay
    restartBase := s.restartBase
    learntLimit := s.learntLimit
    maxConflicts := s.maxConflicts
    maxDecisions := s.maxDecisions
    timeLimit := timeLimit
    seed := s.seed
    phaseNoise := s.phaseNoise }

/-- What a fault of the search is called in a message. -/
def faultMessage : Fault → String
  | .outOfRange => "index out of range"
  | .breach cause => (Failure.invariant cause).message

/-- A search for a formula with the given settings. -/
def setUp (s : Settings) (f : Formula) : Except String Search :=
  match s.options with
  | .error failure => .error failure.message
  | .ok options =>
    match options.validate with
    | .error failure => .error failure.message
    | .ok options => (Search.build f options s.strategies).mapError faultMessage

def answer : Outcome → Except String Verdict
  | .verdict v => .ok v
  | .failed fault => .error (faultMessage fault)
  | .unfinished => .error "search did not finish"

def announcement (path : String) : String :=
  "Solving: " ++ path

/-- The lines on an answered formula, and whether the model was accepted. -/
def answered (s : Settings) (f : Formula) (verdict : Verdict) (statistics : Statistics)
    (m : Measurements) : List String × Except String Nat :=
  let checked :=
    match s.verify, verdict.model? with
    | true, some model => some (f.verify model)
    | _, _ => none
  match checked with
  | some false => ([verifiedLine false], .error "Solution failed verification!")
  | _ =>
    let verified := if checked.isSome then [verifiedLine true] else []
    let table := if s.stats then statisticsTable f statistics m else []
    let model :=
      match s.printSolution, verdict.model? with
      | true, some model => ["Solutions: " ++ model.text]
      | _, _ => []
    (verified ++ table ++ model ++ ["", verdict.text], .ok verdict.exitCode)

/-- Solves a formula: the lines printed, and the exit code or what went wrong. -/
def solveFormula (s : Settings) (label : Option String) (f : Formula) (m : Measurements) :
    List String × Except String Nat :=
  let heading := (label.map announcement).toList
  match setUp s f with
  | .error message => (heading, .error message)
  | .ok search =>
    let (search, outcome) := search.solve
    match answer outcome with
    | .error message => (heading, .error message)
    | .ok verdict =>
      let (lines, result) := answered s f verdict search.statistics m
      (heading ++ lines, result)

def about (path : String) (failure : Failure) : String :=
  path ++ ": " ++ failure.message

def formulaOf (path : String) : Source → Except String Formula
  | .failed reason => .error (about path (.input (.system reason)))
  | .directory _ => .error (about path (.input (.system "Is a directory (os error 21)")))
  | .file content => (Dimacs.read content).mapError (about path)

def solveFile (s : Settings) (path : String) (source : Source) (m : Measurements) :
    List String × Except String Nat :=
  match formulaOf path source with
  | .error message => ([], .error message)
  | .ok f => solveFormula s (some path) f m

/-- Replaces each backslash followed by `n` by a line feed. -/
def unescapeLines : List Char → List Char
  | '\\' :: 'n' :: rest => '\n' :: unescapeLines rest
  | c :: rest => c :: unescapeLines rest
  | [] => []

/-- The formula in a text from the command line. -/
def formulaOfText (input : String) : Except String Formula :=
  (Dimacs.readText (String.ofList (unescapeLines input.toList))).mapError Failure.message

def solveText (s : Settings) (input : String) (m : Measurements) :
    List String × Except String Nat :=
  match formulaOfText input with
  | .error message => ([], .error message)
  | .ok f => solveFormula s none f m

/-! ### Directories -/

/-- The order of names, byte by byte. -/
def nameLe (a b : String) : Bool :=
  !(decide (b.toUTF8.data.toList < a.toUTF8.data.toList))

def joinPath (directory name : String) : String :=
  if directory.endsWith "/" then directory ++ name else directory ++ "/" ++ name

/-- Whether a file name ends in `.cnf` behind at least one other character. -/
def isFormulaName (name : String) : Bool :=
  name.endsWith ".cnf" && name.length != 4

mutual

/-- The files with formulas at a path, in the order in which they are solved. -/
def formulaFiles (path name : String) : Source → List (String × Source)
  | .failed _ => []
  | .file content => if isFormulaName name then [(path, .file content)] else []
  | .directory entries =>
    ((entryFiles path entries).mergeSort fun a b => nameLe a.1 b.1).flatMap Prod.snd

/-- The files with formulas of each entry, beside the name of the entry. -/
def entryFiles (path : String) :
    List (String × Source) → List (String × List (String × Source))
  | [] => []
  | (name, source) :: rest =>
    (name, formulaFiles (joinPath path name) name source) :: entryFiles path rest

end

/-- Adds what the next file printed. A failure is reported and remembered in the exit code. -/
def Output.add (o : Output) : List String × Except String Nat → Output
  | (lines, .ok _) => { o with out := o.out ++ lines }
  | (lines, .error message) =>
    { out := o.out ++ lines, err := o.err ++ [message], code := failureCode }

/-- The message about a path that is no directory. -/
def notDirectory (path : String) : String :=
  "Provided path is not a directory: " ++ path

/-- The end of a run that solved one formula or failed. -/
def Output.ofResult : List String × Except String Nat → Output
  | (lines, .ok code) => ⟨lines, [], code⟩
  | (lines, .error message) => ⟨lines, ["error: " ++ message], failureCode⟩

def solveDir (s : Settings) (path : String) (source : Source) : Output :=
  match source with
  | .directory entries =>
    (formulaFiles path "" (.directory entries)).foldl
      (fun o (file, content) => o.add (solveFile s file content Measurements.none))
      (Output.silent 0)
  | _ => Output.ofResult ([], .error (notDirectory path))

/-! ### Requests -/

def versionLine : String := "cdcl-sat 0.1.0"

def noInput : String :=
  "no input given; pass a DIMACS file or a subcommand (see --help)"

def Request.path? : Request → Option String
  | .solvePath path _ => some path
  | .solveFile path _ => some path
  | .solveDir path _ => some path
  | _ => none

/-- The words that a shell can complete: the commands and the long options. -/
def completionWords : List String :=
  commandNames.map Prod.fst ++ Grammar.top.long.map fun entry => "--" ++ entry.1

/-- Carries out a request on what its path leads to. -/
def execute (request : Request) (source : Source) : Output :=
  match request with
  | .nothing => Output.ofResult ([], .error noInput)
  | .solvePath path s =>
    match source with
    | .directory _ => solveDir s path source
    | _ => Output.ofResult (solveFile s path source Measurements.none)
  | .solveFile path s => Output.ofResult (solveFile s path source Measurements.none)
  | .solveText input s => Output.ofResult (solveText s input Measurements.none)
  | .solveDir path s => solveDir s path source
  | .completions => ⟨completionWords, [], 0⟩

/-- The exit code for arguments that cannot be understood. -/
def usageCode : Nat := 2

def usageLines : List String :=
  ["Usage: cdcl-sat [OPTIONS] [PATH]", "       cdcl-sat file --path <PATH> [OPTIONS]",
    "       cdcl-sat text --input <TEXT> [OPTIONS]", "       cdcl-sat dir --path <PATH> [OPTIONS]",
    "       cdcl-sat completions <SHELL>"]

/-- Ends a run whose arguments give nothing to run. -/
def Stop.output : Stop → Output
  | .usage => ⟨[], usageLines, usageCode⟩
  | .help => ⟨usageLines, [], 0⟩
  | .version => ⟨[versionLine], [], 0⟩

/-- Runs the program on its arguments; `source` tells what a path leads to. -/
def run (args : List String) (source : String → Source) : Output :=
  match parse args with
  | .error stop => stop.output
  | .ok request => execute request ((request.path?.map source).getD (.failed ""))

end ClauseLearning.CommandLine
