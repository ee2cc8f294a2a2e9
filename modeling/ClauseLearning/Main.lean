import ClauseLearning.CommandLine.Run

/-!
# The program

Reads the files that a request names, keeps the clock while formulas are parsed and solved, and
prints the reports. Everything else is decided in `CommandLine`. Memory is not measured.
-/

namespace ClauseLearning.CommandLine

/-- What a system error is called in a message. -/
def systemReason : IO.Error → String
  | .noFileOrDirectory _ _ _ => "No such file or directory (os error 2)"
  | error => toString error

/-- The names in a directory, or nothing for anything else. -/
def directoryNames? (path : String) : IO (Option (List String)) := do
  try
    let place ← IO.FS.realPath path
    if ← place.isDir then
      return some ((← place.readDir).toList.map IO.FS.DirEntry.fileName)
    else return none
  catch _ => return none

/-- Reads what a path leads to; in directories only files with formulas are read. -/
partial def readSource (path name : String) (always : Bool) : IO Source := do
  match ← directoryNames? path with
  | some names =>
    return .directory (← names.mapM fun inner => do
      return (inner, ← readSource (joinPath path inner) inner false))
  | none =>
    if always || isFormulaName name then
      try
        return .file (← IO.FS.readBinFile path).data.toList
      catch error => return .failed (systemReason error)
    else return .failed ""

/-- Nanoseconds as seconds. -/
def seconds (nanos : Nat) : Float :=
  nanos.toUInt64.toFloat / 1e9

/-- Searches on until the search ends; the clock is looked at between runs of 256 steps. -/
partial def searchOn (started : Nat) (control : Control) (s : Search) : IO (Search × Progress) := do
  let passed := (← IO.monoNanosNow) - started
  let timeIsUp := s.options.timeLimit.any fun limit => decide (limit ≤ passed)
  match s.advance (fun _ => timeIsUp) 8 control with
  | (s, .next control) => searchOn started control s
  | ended => return ended

/-- Solves a formula against the clock and prints what it gives; the result is the exit code. -/
def solveTimed (s : Settings) (label : Option String) (parseTime : Float) (f : Formula) :
    IO (Except String Nat) := do
  for path in label do
    IO.println (announcement path)
  let started ← IO.monoNanosNow
  match setUp s f with
  | .error message => return .error message
  | .ok search =>
    let (search, progress) ←
      match search.start with
      | (search, .next control) => searchOn started control search
      | ended => pure ended
    let (search, outcome) := Search.finish (search, progress)
    let solveTime := seconds ((← IO.monoNanosNow) - started)
    match answer outcome with
    | .error message => return .error message
    | .ok verdict =>
      let (lines, result) :=
        answered s f verdict search.statistics ⟨parseTime, solveTime, 0.0, 0.0⟩
      lines.forM IO.println
      return result

/-- Parses against the clock, then solves. -/
def parseTimed (s : Settings) (label : Option String) (parse : Unit → Except String Formula) :
    IO (Except String Nat) := do
  let started ← IO.monoNanosNow
  match parse () with
  | .error message => return .error message
  | .ok f => solveTimed s label (seconds ((← IO.monoNanosNow) - started)) f

def conclude (result : Except String Nat) : IO UInt32 := do
  match result with
  | .ok code => return code.toUInt32
  | .error message =>
    IO.eprintln ("error: " ++ message)
    return failureCode.toUInt32

def solveDirTimed (s : Settings) (path : String) (source : Source) : IO UInt32 := do
  match source with
  | .directory entries =>
    let mut code := 0
    for (file, content) in formulaFiles path "" (.directory entries) do
      match ← parseTimed s (some file) fun _ => formulaOf file content with
      | .ok _ => pure ()
      | .error message =>
        IO.eprintln message
        code := failureCode
    return code.toUInt32
  | _ => conclude (.error (notDirectory path))

def solveFileTimed (s : Settings) (path : String) (source : Source) : IO UInt32 := do
  conclude (← parseTimed s (some path) fun _ => formulaOf path source)

def serve (request : Request) : IO UInt32 := do
  match request with
  | .solveText input s => conclude (← parseTimed s none fun _ => formulaOfText input)
  | .solveFile path s => solveFileTimed s path (← readSource path "" true)
  | .solveDir path s => solveDirTimed s path (← readSource path "" true)
  | .solvePath path s =>
    match ← readSource path "" true with
    | .directory entries => solveDirTimed s path (.directory entries)
    | source => solveFileTimed s path source
  | other =>
    let output := execute other (.failed "")
    output.out.forM IO.println
    output.err.forM IO.eprintln
    return output.code.toUInt32

end ClauseLearning.CommandLine

open ClauseLearning.CommandLine in
def main (args : List String) : IO UInt32 := do
  match parse args with
  | .error stop =>
    stop.output.out.forM IO.println
    stop.output.err.forM IO.eprintln
    return stop.output.code.toUInt32
  | .ok request => serve request
