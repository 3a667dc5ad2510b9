import LoxMachine.Object

/-!
# The journal

What the heap, the compiler and the machine report about their work, in order. A journal keeps only
the events of the levels it was asked for, and none by default.

* `Event` is one report, `Event.level` how detailed it is and `Event.message` its text.
* `Journal.record` appends an event if its level is kept.
-/

namespace LoxMachine

/-- How detailed a report is. -/
inductive Level where
  | debug
  | trace
  deriving DecidableEq, Repr

/-- A report. -/
inductive Event where
  | collectionBegins
  | collectionEnds (before after next : Nat)
  /-- The listing of a function whose compilation has finished. -/
  | compiled (listing : String)
  | allocated (handle : Handle) (bytes : Nat) (kind : ObjectKind)
  /-- The references of a reachable object are followed. -/
  | followed (handle : Handle) (kind : ObjectKind)
  | freed (handle : Handle) (kind : ObjectKind)
  /-- The operand stack before an instruction, as texts of its values. -/
  | operands (texts : List String)
  /-- The instruction about to be executed. -/
  | executes (instruction : String)
  deriving Repr

namespace Event

def level : Event → Level
  | collectionBegins | collectionEnds .. | compiled _ => .debug
  | allocated .. | followed .. | freed .. | operands _ | executes _ => .trace

def message : Event → String
  | collectionBegins => "-- gc begin"
  | collectionEnds before after next =>
    let freed := before - after
    s!"-- gc end: collected {freed} bytes (from {before} to {after}) next at {next}"
  | compiled listing => listing
  | allocated handle bytes kind => s!"alloc {handle.text} {bytes} bytes for {kind.name}"
  | followed handle kind => s!"blacken {handle.text} {kind.name}"
  | freed handle kind => s!"free {handle.text} {kind.name}"
  | operands texts => "          " ++ String.join (texts.map fun text => s!"[ {text} ]")
  | executes instruction => instruction

end Event

/-- The events reported so far, and the most detailed level that is kept. -/
structure Journal where
  keeps : Option Level := none
  events : Array Event := #[]
  deriving Inhabited

namespace Journal

/-- Whether events of a level are kept. -/
def admits (j : Journal) : Level → Bool
  | .debug => j.keeps.isSome
  | .trace => j.keeps == some .trace

/-- Append an event, if its level is kept. -/
def record (j : Journal) (e : Event) : Journal :=
  if j.admits e.level then { j with events := j.events.push e } else j

end Journal

end LoxMachine
