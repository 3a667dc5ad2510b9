import LoxMachine.CommandLine
import Std.Time.DateTime.Timestamp

/-!
# The program

The outer layer of the command line: it reads scripts and lines, prints what the commands answer,
and lets the machine go on for as long as a program runs.
-/

namespace LoxMachine

open CommandLine

/-- How many steps are taken between two looks at the output. -/
def batch : Nat := 100000

/-- The reading of the clock, in seconds since the start of 1970. -/
def readClock : IO Number := do
  let now ← Std.Time.Timestamp.now
  return Number.ofDecimal now.toNanosecondsSinceUnixEpoch.val.toNat 9

/-- The number of a system error, which some calls give negated. -/
def errorNumber (code : UInt32) : UInt32 := if code < 0x80000000 then code else 0 - code

/-- Why a file could not be read. -/
def readErrorOf (e : IO.Error) : ReadError :=
  match e with
  | .noFileOrDirectory .. => .notFound
  | .permissionDenied .. => .permissionDenied
  | .inappropriateType _ code _ =>
    if errorNumber code = 20 then .notDirectory else .isDirectory
  | .invalidArgument _ code _ =>
    if errorNumber code = 36 then .nameTooLong else .other (toString e)
  | _ => .other (toString e)

/-- Read a script. -/
def readScript (path : String) : IO (Except ReadError String) := do
  try
    return sourceOf (← IO.FS.readBinFile path)
  catch e => return .error (readErrorOf e)

/-- Print what has been written and what has been reported since the last time. -/
def flush (m : Machine) : IO Machine := do
  let stdout ← IO.getStdout
  stdout.write m.sink.written
  stdout.flush
  for e in m.heap.journal.events do IO.eprintln e.message
  return { m with
    sink := {}
    heap := { m.heap with journal := { m.heap.journal with events := #[] } } }

/-- Let the machine go on until its program ends. -/
partial def finish (m : Machine) : IO (Report × Machine) := do
  let now ← readClock
  let (report, m) := { m with clock := fun _ => now }.resume batch
  let m ← flush m
  match report with
  | .unfinished => finish m
  | report => return (report, m)

/-- Interpret a source to its end and print what it reports. -/
def interpretFully (m : Machine) (source : String) : IO (Report × Machine) := do
  let (report, m) ← match m.load source with
    | (some report, m) => do return (report, ← flush m)
    | (none, m) => finish m
  IO.eprint (complaint report)
  return (report, m)

/-- Read and interpret lines until the input ends. -/
partial def readLines (m : Machine) : IO UInt32 := do
  IO.print promptText
  (← IO.getStdout).flush
  let line ← (← IO.getStdin).getLine
  if line.isEmpty then
    IO.println ""
    return 0
  let (_, m) ← interpretFully m line
  readLines m

/-- Print an answer. -/
def printAnswer (a : Answer) : IO UInt32 := do
  IO.print a.stdout
  IO.eprint a.stderr
  return a.exit

/-- What the options are. -/
def helpText : String :=
  "Usage: lox [OPTIONS] [PATH]\n\n" ++
  "  [PATH]                  Script to run; without one, lines are read\n" ++
  "  --disassemble           Print the compiled code instead of running it\n" ++
  "  --stress-gc             Collect garbage before every allocation\n" ++
  "  --gc-threshold <BYTES>  Heap size that triggers the first collection\n" ++
  "  -v, --verbose           Report more\n" ++
  "  -h, --help              Print this\n" ++
  "  -V, --version           Print the version\n"

/-- Do what a command line asks for. -/
def perform : Command → IO UInt32
  | .help => printAnswer { stdout := helpText }
  | .version => printAnswer { stdout := versionText }
  | .usage => printAnswer { exit := badUsage, stderr := helpText }
  | .repl o => readLines (.create o.heap)
  | .list path o => do
    match ← readScript path with
    | .ok source => printAnswer (listScript o source)
    | .error e => printAnswer (unreadable path e)
  | .run path o => do
    match ← readScript path with
    | .ok source =>
      let (report, _) ← interpretFully (.create o.heap) source
      return exitCode report
    | .error e => printAnswer (unreadable path e)

end LoxMachine

def main (args : List String) : IO UInt32 :=
  LoxMachine.perform (LoxMachine.CommandLine.Command.parse args)
