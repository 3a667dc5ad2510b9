import LoxMachine.Session

/-!
# The command line

`lox [OPTIONS] [PATH]` runs a script, lists its code, or reads sources line by line.

* `Command.parse` reads the arguments.
* `runScript`, `listScript` and `replLine` do the work of the commands, each answering with an
  `Answer`: the exit code and what goes to the two output streams.
-/

namespace LoxMachine

namespace CommandLine

/-! ## Arguments -/

/-- What the arguments ask for. -/
structure Options where
  path : Option String := none
  /-- List the code instead of running it. -/
  disassemble : Bool := false
  stressGc : Bool := false
  gcThreshold : Option Nat := none
  /-- How often more reports were asked for. -/
  verbosity : Nat := 0
  deriving DecidableEq, Inhabited, Repr

namespace Options

/-- The collector's settings. -/
def gcConfig (o : Options) : GcConfig :=
  let config : GcConfig := { stress := o.stressGc }
  match o.gcThreshold with
  | some threshold => { config with threshold }
  | none => config

/-- The reports to keep. -/
def journal (o : Options) : Journal :=
  { keeps := match o.verbosity with
      | 0 => none
      | 1 => some .debug
      | _ => some .trace }

/-- A heap with these settings. -/
def heap (o : Options) : Heap :=
  { config := o.gcConfig, journal := o.journal }

end Options

/-- What to do. -/
inductive Command where
  | help
  | version
  /-- The arguments are not understood. -/
  | usage
  /-- Read sources line by line. -/
  | repl (o : Options)
  | run (path : String) (o : Options)
  /-- List the code of a script. -/
  | list (path : String) (o : Options)
  deriving DecidableEq, Repr

namespace Command

/-- A number of bytes: decimal digits, perhaps after a plus sign, that fit into a word. -/
def byteCount? (s : String) : Option Nat :=
  let digits := match s.toList with
    | '+' :: digits => digits
    | digits => digits
  if digits.isEmpty || !digits.all Char.isDigit then none
  else
    let n := Number.naturalOfDigits digits
    if n < wordCount then some n else none

/-- Whether an argument is read as an option. A lone dash is not. -/
def isOption (arg : String) : Bool := arg.startsWith "-" && arg != "-"

/-- Take a path; there can be one only, and it is not empty. -/
def takePath (o : Options) (arg : String) : Option Options :=
  if o.path.isSome || arg.isEmpty then none else some { o with path := some arg }

/-- Take the letters of an argument with one dash. A command given there ends the reading. -/
def takeLetters (o : Options) : List Char → Except Command Options
  | [] => .ok o
  | 'v' :: rest => takeLetters { o with verbosity := o.verbosity + 1 } rest
  | 'h' :: _ => .error .help
  | 'V' :: _ => .error .version
  | _ => .error .usage

/-- Take a long option without a value. It can be given once, `verbose` excepted. -/
def takeFlag (o : Options) : String → Except Command Options
  | "--help" => .error .help
  | "--version" => .error .version
  | "--verbose" => .ok { o with verbosity := o.verbosity + 1 }
  | "--disassemble" => if o.disassemble then .error .usage else .ok { o with disassemble := true }
  | "--stress-gc" => if o.stressGc then .error .usage else .ok { o with stressGc := true }
  | _ => .error .usage

/-- Take the value of the threshold option, which can be given once. -/
def takeThreshold (o : Options) (text : String) : Except Command Options :=
  match o.gcThreshold, byteCount? text with
  | none, some n => .ok { o with gcThreshold := some n }
  | _, _ => .error .usage

/-- What the options ask for. Listing needs a path. -/
def ofOptions (o : Options) : Command :=
  match o.path with
  | some path => if o.disassemble then .list path o else .run path o
  | none => if o.disassemble then .usage else .repl o

/-- Read the arguments after `--`, which are no options. -/
def parsePaths (o : Options) : List String → Command
  | [] => ofOptions o
  | arg :: rest =>
    match takePath o arg with
    | some o => parsePaths o rest
    | none => .usage

/-- Read arguments. The first thing that is wrong, or that asks for help or the version, ends it. -/
def parseFrom (o : Options) : List String → Command
  | [] => ofOptions o
  | "--" :: rest => parsePaths o rest
  | "--gc-threshold" :: [] => .usage
  | "--gc-threshold" :: value :: rest =>
    if isOption value then .usage
    else
      match takeThreshold o value with
      | .ok o => parseFrom o rest
      | .error command => command
  | arg :: rest =>
    let taken :=
      if arg.startsWith "--gc-threshold=" then takeThreshold o (arg.drop 15).copy
      else if arg.startsWith "--" then takeFlag o arg
      else if isOption arg then takeLetters o (arg.toList.drop 1)
      else (takePath o arg).elim (.error .usage) .ok
    match taken with
    | .ok o => parseFrom o rest
    | .error command => command

/-- Read the arguments of a command line. -/
def parse (args : List String) : Command := parseFrom {} args

end Command

/-! ## Commands -/

/-- The exit codes of failures. -/
def badUsage : UInt32 := 64

def badSource : UInt32 := 65

def badRun : UInt32 := 70

def badInput : UInt32 := 74

/-- The text that `--version` prints. -/
def versionText : String := "lox 0.1.0\n"

/-- What a command answers. -/
structure Answer where
  exit : UInt32 := 0
  stdout : String := ""
  stderr : String := ""
  deriving DecidableEq, Repr

/-- Why a script cannot be read. -/
inductive ReadError where
  | notFound
  | permissionDenied
  | notDirectory
  | isDirectory
  | nameTooLong
  | notText
  | other (message : String)
  deriving DecidableEq, Repr

namespace ReadError

def message : ReadError → String
  | notFound => "No such file or directory (os error 2)"
  | permissionDenied => "Permission denied (os error 13)"
  | notDirectory => "Not a directory (os error 20)"
  | isDirectory => "Is a directory (os error 21)"
  | nameTooLong => "File name too long (os error 36)"
  | notText => "stream did not contain valid UTF-8"
  | other message => message

end ReadError

/-- A script that cannot be read. -/
def unreadable (path : String) (e : ReadError) : Answer :=
  { exit := badInput, stderr := s!"error: cannot read '{path}': {e.message}\n" }

/-- The contents of a script file. -/
def sourceOf (bytes : ByteArray) : Except ReadError String :=
  match String.fromUTF8? bytes with
  | some source => .ok source
  | none => .error .notText

/-- The exit code for a report. -/
def exitCode : Report → UInt32
  | .finished | .unfinished => 0
  | .rejected _ => badSource
  | .aborted .. | .faulted _ => badRun

/-- What a report shows on the error stream. -/
def complaint (r : Report) : String := r.message?.elim "" (· ++ "\n")

/-- The answer to an interpretation whose output started at byte `start` of the sink. -/
def answer (r : Report) (m : Machine) (start : Nat) : Answer :=
  { exit := exitCode r, stdout := m.sink.textFrom start, stderr := complaint r }

/-- Run a script for a number of steps. -/
def runScript (o : Options) (clock : Nat → Number) (source : String) (fuel : Nat) : Answer :=
  let (report, m) := (Machine.create o.heap {} clock).interpret source fuel
  answer report m 0

/-- List the code of a script and of all functions in it. -/
def listScript (o : Options) (source : String) : Answer :=
  match compile source o.heap (Thunk.pure []) with
  | (.error errors, _) =>
    { exit := badSource, stderr := String.join (errors.toList.map fun e => e.text ++ "\n") }
  | (.ok h, heap) =>
    match Listing.program heap h with
    | .ok text => { stdout := text }
    | .error f => { exit := badRun, stderr := f.message ++ "\n" }

/-! ## Reading line by line -/

/-- The prompt before each line. -/
def promptText : String := "> "

/-- Interpret one line. A failure is reported and the session goes on. -/
def replLine (m : Machine) (line : String) (fuel : Nat) : Answer × Machine :=
  let start := m.sink.written.size
  let (report, m) := m.interpret line fuel
  ({ answer report m start with exit := 0 }, m)

/-- The lines of a text, each with its line feed. -/
def linesOf (s : String) : List String :=
  let pieces := s.splitOn "\n"
  let ended := pieces.dropLast.map (· ++ "\n")
  match pieces.getLast? with
  | some "" | none => ended
  | some last => ended ++ [last]

/-- A whole session on the given input. The end of the input ends the line of the last prompt. -/
def repl (o : Options) (clock : Nat → Number) (input : String) (fuel : Nat) : Answer :=
  let step := fun (sofar, m) line =>
    let (a, m) := replLine m line fuel
    ({ sofar with
      stdout := sofar.stdout ++ promptText ++ a.stdout
      stderr := sofar.stderr ++ a.stderr : Answer }, m)
  let (a, _) := (linesOf input).foldl step (({} : Answer), Machine.create o.heap {} clock)
  { a with stdout := a.stdout ++ promptText ++ "\n" }

end CommandLine

end LoxMachine
