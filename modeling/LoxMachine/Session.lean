import LoxMachine.Compile
import LoxMachine.Machine.Execution

/-!
# Sessions

A machine interprets one source after another; global variables stay from one to the next.

* `Machine.create` is a fresh machine, which knows the native function `clock`.
* `Machine.interpret` compiles a source and runs it for a number of steps.
* `Report` tells how that ended, and `Report.message?` is what is shown to the user of a source that
  failed.
-/

namespace LoxMachine

/-- The result of `clock` is the reading of the clock. -/
def Native.clock : Native := { name := "clock", apply := fun reading _ => .number reading }

/-- How the interpretation of a source ended. -/
inductive Report where
  | finished
  /-- The source does not compile. -/
  | rejected (errors : Array CompileError)
  /-- The execution ended early. The calls that were active come innermost first. -/
  | aborted (error : RuntimeError) (trace : List TraceLine)
  /-- The heap rejected a handle. -/
  | faulted (fault : Fault)
  /-- The number of steps was not enough. -/
  | unfinished

namespace Report

/-- What is shown of a source that failed. -/
def message? : Report → Option String
  | rejected errors => some ("\n".intercalate (errors.toList.map CompileError.text))
  | aborted error trace =>
    some (error.message ++ "\n" ++ "\n".intercalate (trace.map TraceLine.text))
  | _ => none

end Report

namespace Machine

/-! ## Making machines -/

/-- Let a global variable hold a native function. Both objects are on the stack until the variable
is defined. -/
def defineNative (m : Machine) (native : Native) : Machine :=
  let (name, heap) := m.heap.intern m.roots native.name
  let m := { m with heap, stack := m.stack.push (.obj name) }
  let (h, heap) := m.heap.alloc m.roots (.native native)
  let key : Key := ⟨name, fnv1a native.name⟩
  { m with heap, stack := m.stack.pop, globals := m.globals.insert key (.obj h) }

/-- A machine around a heap without objects. -/
def create (heap : Heap) (sink : Sink := {}) (clock : Nat → Number := fun _ => ⟨0⟩) : Machine :=
  let (initName, heap) := heap.intern (Thunk.pure []) "init"
  defineNative { heap, initName, sink, clock } .clock

/-! ## Reports -/

/-- The calls that are active, the innermost first. Each is on the line of the byte read last. -/
def trace (m : Machine) : Except Fault (List TraceLine) :=
  m.frames.mapM fun f => do
    let function ← m.heap.function f.function
    let name ← match function.name with
      | some name => some <$> m.heap.contents name
      | none => pure none
    return { line := function.chunk.lineAt (f.ip - 1), function := name }

/-- Forget what was being executed. -/
def reset (m : Machine) : Machine :=
  { m with stack := #[], frames := [], openUpvalues := [] }

/-- The value of a global variable. -/
def global? (m : Machine) (name : String) : Option Value :=
  (m.globals.entries.find? fun (key, _) => m.heap.hasContents name key.handle).map (·.2)

/-! ## Interpretation -/

/-- Start the execution of a function. -/
def enter (function : Handle) : Run Unit := do
  Run.push (.obj function)
  let closure ← Run.alloc (.closure { function })
  let _ ← Run.pop
  Run.push (.obj closure)
  Run.call closure 0

/-- Report a failure and forget what was being executed. -/
def abort (m : Machine) (why : Failure) : Report × Machine :=
  match why, m.trace with
  | .error e, .ok trace => (.aborted e trace, m.reset)
  | .error _, .error f => (.faulted f, m.reset)
  | .fault f, _ => (.faulted f, m.reset)

/-- Go on with an execution for a number of steps. -/
def resume (m : Machine) (fuel : Nat) : Report × Machine :=
  match m.run fuel with
  | .finished m => (.finished, m)
  | .running m => (.unfinished, m)
  | .failed why m => m.abort why

/-- Compile a source, and start to execute it. The answer is a report if that fails. -/
def load (m : Machine) (source : String) : Option Report × Machine :=
  let ⟨heap, stack, frames, globals, openUpvalues, initName, sink, clock, nativeCalls⟩ := m
  let (result, heap) := compile source heap (handles stack frames openUpvalues globals initName)
  let m := ⟨heap, stack, frames, globals, openUpvalues, initName, sink, clock, nativeCalls⟩
  match result with
  | .error errors => (some (.rejected errors), m)
  | .ok function =>
    match enter function m with
    | .ok () m => (none, m)
    | .error why m =>
      let (report, m) := m.abort why
      (some report, m)

/-- Compile a source and execute it for a number of steps. -/
def interpret (m : Machine) (source : String) (fuel : Nat) : Report × Machine :=
  match m.load source with
  | (some report, m) => (report, m)
  | (none, m) => m.resume fuel

end Machine

end LoxMachine
