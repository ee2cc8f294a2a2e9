import ClauseLearning.Decimal.Reader
import ClauseLearning.Options
import ClauseLearning.Strategy
import ClauseLearning.Word

/-!
# Command-line arguments

Options may stand anywhere around a positional argument. A long option takes its value after `=` or
from the next argument, a short one also directly behind its letter; short switches may share one
dash. After `--` every argument is positional. The first positional argument that names a command
starts that command, which reads the remaining arguments; anything else is the path.

A value is read when the next option or positional argument is met, so of several mistakes the
leftmost decides, and a request for help is granted only if nothing before it is wrong.
-/

namespace ClauseLearning.CommandLine

/-- Everything that can be given on the command line. -/
inductive Parameter where
  | debug
  | verify
  | stats
  | printSolution
  | keepAll
  | noConflictLimit
  | help
  | version
  | propagator
  | branching
  | phase
  | restarter
  | activityDecay
  | restartBase
  | learntLimit
  | maxConflicts
  | maxDecisions
  | timeLimit
  | seed
  | phaseNoise
  | path
  | input
  | shell
deriving DecidableEq, Repr

/-- The choices for solving. Numbers are checked when the search is set up, not when they are
read. -/
structure Settings where
  verify : Bool
  stats : Bool
  printSolution : Bool
  strategies : Strategies
  activityDecay : Float
  restartBase : Nat
  learntLimit : Nat
  maxConflicts : Option Nat
  maxDecisions : Option Nat
  timeLimit : Option Float
  seed : UInt64
  phaseNoise : Float

def Settings.standard : Settings where
  verify := false
  stats := false
  printSolution := false
  strategies := Strategies.standard
  activityDecay := Options.standard.activityDecay
  restartBase := Options.standard.restartBase
  learntLimit := Options.standard.learntLimit
  maxConflicts := Options.standard.maxConflicts
  maxDecisions := Options.standard.maxDecisions
  timeLimit := none
  seed := Options.standard.seed
  phaseNoise := Options.standard.phaseNoise

/-- The commands. -/
inductive Command where
  | file
  | text
  | dir
  | completions
deriving DecidableEq, Repr

/-- Why the arguments give nothing to run. -/
inductive Stop where
  | usage
  | help
  | version
deriving DecidableEq, Repr

/-! ### What may be given where -/

/-- The parameters of a command by their names. -/
structure Grammar where
  long : List (String × Parameter)
  short : List (Char × Parameter)
  positional : Option Parameter
  required : List Parameter
  commands : List (String × Command)
  helpCommand : Bool

def commonLong : List (String × Parameter) :=
  [("debug", .debug), ("verify", .verify), ("stats", .stats), ("print-solution", .printSolution),
    ("no-clause-management", .keepAll), ("propagator", .propagator),
    ("variable-selection", .branching), ("phase-selection", .phase),
    ("restart-strategy", .restarter), ("vsids-decay", .activityDecay),
    ("restart-base", .restartBase), ("learned-clause-limit", .learntLimit),
    ("max-conflicts", .maxConflicts), ("no-conflict-limit", .noConflictLimit),
    ("max-decisions", .maxDecisions), ("time-limit", .timeLimit), ("seed", .seed),
    ("phase-noise", .phaseNoise), ("help", .help)]

def commonShort : List (Char × Parameter) :=
  [('d', .debug), ('v', .verify), ('s', .stats), ('p', .printSolution), ('h', .help)]

def commandNames : List (String × Command) :=
  [("file", .file), ("text", .text), ("dir", .dir), ("completions", .completions)]

def Grammar.top : Grammar where
  long := commonLong ++ [("version", .version)]
  short := commonShort ++ [('V', .version)]
  positional := some .path
  required := []
  commands := commandNames
  helpCommand := true

def Grammar.ofCommand : Command → Grammar
  | .file => ⟨commonLong ++ [("path", .path)], commonShort, none, [.path], [], false⟩
  | .text =>
    ⟨commonLong ++ [("input", .input)], commonShort ++ [('i', .input)], none, [.input], [], false⟩
  | .dir => ⟨commonLong ++ [("path", .path)], commonShort, none, [.path], [], false⟩
  | .completions => ⟨[("help", .help)], [('h', .help)], some .shell, [.shell], [], false⟩

/-- Whether a parameter is a switch, which takes no value. -/
def Parameter.isSwitch : Parameter → Bool
  | .debug | .verify | .stats | .printSolution | .keepAll | .noConflictLimit => true
  | .help | .version => true
  | _ => false

def shells : List String :=
  ["bash", "elvish", "fish", "powershell", "zsh"]

/-! ### Taking arguments -/

/-- What has been given so far. A value that is awaited, or given but not yet read, is pending. -/
structure Draft where
  settings : Settings
  seen : List Parameter
  path : Option String
  input : Option String
  pending : Option (Parameter × Option String)
  positionalTaken : Bool

def Draft.empty : Draft :=
  ⟨Settings.standard, [], none, none, none, false⟩

/-- A whole number of 64 bits. -/
def readWord (text : String) : Option Nat :=
  (Text.readNatural Word.greatest text.toList).toOption

/-- The settings with a parameter set, if the value is one. -/
def Settings.set (s : Settings) (p : Parameter) (value : String) : Option Settings :=
  match p with
  | .propagator => (propagatorNames.find? false value).map fun x =>
      { s with strategies := { s.strategies with propagator := x } }
  | .branching => (branchingNames.find? false value).map fun x =>
      { s with strategies := { s.strategies with branching := x } }
  | .phase => (phaseNames.find? false value).map fun x =>
      { s with strategies := { s.strategies with phase := x } }
  | .restarter => (restarterNames.find? false value).map fun x =>
      { s with strategies := { s.strategies with restarter := x } }
  | .activityDecay => (Decimal.read? value.toList).map fun x => { s with activityDecay := x }
  | .restartBase => (readWord value).map fun n => { s with restartBase := n }
  | .learntLimit => (readWord value).map fun n => { s with learntLimit := n }
  | .maxConflicts => (readWord value).map fun n => { s with maxConflicts := some n }
  | .maxDecisions => (readWord value).map fun n => { s with maxDecisions := some n }
  | .timeLimit => (Decimal.read? value.toList).map fun x => { s with timeLimit := some x }
  | .seed => (readWord value).map fun n => { s with seed := n.toUInt64 }
  | .phaseNoise => (Decimal.read? value.toList).map fun x => { s with phaseNoise := x }
  | _ => none

namespace Draft

/-- Sets a parameter to a value. Each can be given once, and a path is not empty. -/
def set (d : Draft) (p : Parameter) (value : String) : Except Stop Draft :=
  if d.seen.contains p then .error .usage
  else
    let d := { d with seen := p :: d.seen }
    match p with
    | .path => if value.isEmpty then .error .usage else .ok { d with path := some value }
    | .input => .ok { d with input := some value }
    | .shell => if shells.contains value then .ok d else .error .usage
    | _ =>
      match d.settings.set p value with
      | some settings => .ok { d with settings := settings }
      | none => .error .usage

/-- Reads the pending value; one that is still awaited is missing. -/
def settle (d : Draft) : Except Stop Draft :=
  match d.pending with
  | none => .ok d
  | some (_, none) => .error .usage
  | some (p, some value) => { d with pending := none }.set p value

def turnOn (d : Draft) (p : Parameter) : Except Stop Draft := do
  let d ← d.settle
  if d.seen.contains p then .error .usage
  else
    let d := { d with seen := p :: d.seen }
    match p with
    | .help => .error .help
    | .version => .error .version
    | .verify => .ok { d with settings := { d.settings with verify := true } }
    | .stats => .ok { d with settings := { d.settings with stats := true } }
    | .printSolution => .ok { d with settings := { d.settings with printSolution := true } }
    | .keepAll =>
      let strategies := { d.settings.strategies with database := .keepAll }
      .ok { d with settings := { d.settings with strategies := strategies } }
    | .noConflictLimit => .ok { d with settings := { d.settings with maxConflicts := none } }
    | _ => .ok d

/-- Sets a parameter to the value attached to it. -/
def attach (d : Draft) (p : Parameter) (value : String) : Except Stop Draft := do
  (← d.settle).set p value

/-- Waits for the value of a parameter in the next argument. -/
def await (d : Draft) (p : Parameter) : Except Stop Draft := do
  return { ← d.settle with pending := some (p, none) }

def takePositional (g : Grammar) (d : Draft) (value : String) : Except Stop Draft :=
  match g.positional with
  | none => .error .usage
  | some p =>
    if d.positionalTaken then .error .usage
    else do
      return { ← d.settle with pending := some (p, some value), positionalTaken := true }

/-- Takes a long option, given without its dashes. -/
def takeLong (g : Grammar) (d : Draft) (text : List Char) : Except Stop Draft :=
  let name := String.ofList (text.takeWhile (· != '='))
  let rest := text.dropWhile (· != '=')
  match g.long.lookup name, rest with
  | none, _ => .error .usage
  | some p, [] => if p.isSwitch then d.turnOn p else d.await p
  | some p, _ :: value => if p.isSwitch then .error .usage else d.attach p (String.ofList value)

def takeShort (g : Grammar) (d : Draft) : List Char → Except Stop Draft
  | [] => .ok d
  | c :: rest =>
    match g.short.lookup c with
    | none => .error .usage
    | some p =>
      if p.isSwitch then
        match d.turnOn p with
        | .error stop => .error stop
        | .ok d => takeShort g d rest
      else
        match rest with
        | [] => d.await p
        | '=' :: value => d.attach p (String.ofList value)
        | value => d.attach p (String.ofList value)

/-- Whether the next argument is the value of an option. -/
def awaits (d : Draft) : Option Parameter :=
  match d.pending with
  | some (p, none) => some p
  | _ => none

/-- Reads what is pending and checks what was given as a whole. -/
def close (g : Grammar) (d : Draft) : Except Stop Draft := do
  let d ← d.settle
  if g.required.any fun p => !d.seen.contains p then .error .usage
  else if d.seen.contains .noConflictLimit && d.seen.contains .maxConflicts then .error .usage
  else return d

end Draft

/-- The grammar below the help command: each name has to be that of a command. -/
def helpFor : List String → Stop
  | [] => .help
  | [name] => if name == "help" || (commandNames.lookup name).isSome then .help else .usage
  | _ => .usage

/-- Takes arguments in order; the result has what was given to a command beside what stood before
it. `plain` says that `--` has been met. -/
def takeAll (g : Grammar) (plain : Bool) :
    List String → Draft → Except Stop (Draft × Option (Command × Draft))
  | [], d => (d.close g).map fun d => (d, none)
  | arg :: rest, d =>
    if plain then
      match d.takePositional g arg with
      | .error stop => .error stop
      | .ok d => takeAll g true rest d
    else if d.awaits.isNone && g.helpCommand && arg == "help" then .error (helpFor rest)
    else
      match (if d.awaits.isNone then g.commands.lookup arg else none) with
      | some command =>
        match takeAll (Grammar.ofCommand command) false rest Draft.empty with
        | .error stop => .error stop
        | .ok (inner, _) => (d.close g).map fun d => (d, some (command, inner))
      | none =>
        match arg.toList, d.awaits with
        | ['-', '-'], _ => takeAll g true rest d
        | '-' :: '-' :: text, _ =>
          match d.takeLong g text with
          | .error stop => .error stop
          | .ok d => takeAll g false rest d
        | '-' :: c :: text, _ =>
          match d.takeShort g (c :: text) with
          | .error stop => .error stop
          | .ok d => takeAll g false rest d
        | _, some p => takeAll g false rest { d with pending := some (p, some arg) }
        | _, none =>
          match d.takePositional g arg with
          | .error stop => .error stop
          | .ok d => takeAll g false rest d

/-- What the arguments ask for. -/
inductive Request where
  | nothing
  | solvePath (path : String) (settings : Settings)
  | solveFile (path : String) (settings : Settings)
  | solveText (input : String) (settings : Settings)
  | solveDir (path : String) (settings : Settings)
  | completions

/-- Reads the arguments. Settings given before a command do not count for it. -/
def parse (args : List String) : Except Stop Request :=
  match takeAll Grammar.top false args Draft.empty with
  | .error stop => .error stop
  | .ok (d, none) =>
    .ok (match d.path with
      | none => .nothing
      | some path => .solvePath path d.settings)
  | .ok (_, some (command, d)) =>
    .ok (match command with
      | .file => .solveFile (d.path.getD "") d.settings
      | .text => .solveText (d.input.getD "") d.settings
      | .dir => .solveDir (d.path.getD "") d.settings
      | .completions => .completions)

end ClauseLearning.CommandLine
