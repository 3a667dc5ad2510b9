import LoxMachine.Chunk

/-!
# Runtime errors

* `RuntimeError` is why the execution of a program ends early, `RuntimeError.message` its wording.
  The last three kinds arise only from code that no source compiles to.
* `TraceLine` is one line of the report on the calls that were active.
-/

namespace LoxMachine

/-- Why an execution ends early. -/
inductive RuntimeError where
  | operandNotNumber
  | operandsNotNumbers
  | operandsNotNumbersOrStrings
  | undefinedVariable (name : String)
  | undefinedProperty (name : String)
  | noProperties
  | noFields
  | noMethods
  | notCallable
  | arityMismatch (expected got : Nat)
  | stackOverflow
  | superclassNotClass
  /-- The output was not accepted. -/
  | output (reason : String)
  /-- A stack slot that does not exist was used. -/
  | stackUnderflow
  | noActiveFrame
  | decode (e : DecodeError)
  deriving DecidableEq, Repr

namespace RuntimeError

def message : RuntimeError → String
  | operandNotNumber => "Operand must be a number."
  | operandsNotNumbers => "Operands must be numbers."
  | operandsNotNumbersOrStrings => "Operands must be two numbers or two strings."
  | undefinedVariable name => s!"Undefined variable '{name}'."
  | undefinedProperty name => s!"Undefined property '{name}'."
  | noProperties => "Only instances have properties."
  | noFields => "Only instances have fields."
  | noMethods => "Only instances have methods."
  | notCallable => "Can only call functions and classes."
  | arityMismatch expected got => s!"Expected {expected} arguments but got {got}."
  | stackOverflow => "Stack overflow."
  | superclassNotClass => "Superclass must be a class."
  | output reason => s!"Could not write output: {reason}"
  | stackUnderflow => "Stack underflow."
  | noActiveFrame => "No active call frame."
  | decode e => s!"Invalid bytecode: {e.message}"

end RuntimeError

/-- A call that was active when an execution ended early. The script has no name. -/
structure TraceLine where
  line : Nat
  function : Option String
  deriving DecidableEq, Repr

namespace TraceLine

def text (t : TraceLine) : String :=
  match t.function with
  | some name => s!"[line {t.line}] in {name}()"
  | none => s!"[line {t.line}] in script"

end TraceLine

end LoxMachine
