import LoxMachine.Compile.Statements

/-!
# Compiling a source

* `compile` turns a source text into a function of the heap, or into the errors found in it, in the
  order of the source.
-/

namespace LoxMachine

namespace Compile

/-- Parse declarations to the end of the source. -/
def script (fuel : Nat) : Compile Unit := do
  advance
  loop (return !(← accept .eof)) (declaration fuel) fuel

end Compile

/-- Enough steps to parse a number of tokens. -/
def Compiler.fuel (tokens : Nat) : Nat := 4 * (tokens + 1)

/-- Compile a source text. Collections on the way keep what is reachable from `roots`. -/
def compile (source : String) (heap : Heap) (roots : Thunk (List Handle)) :
    Except (Array CompileError) Handle × Heap :=
  let start := Compiler.start source heap roots
  let parse : Compile Draft := do
    Compile.script (Compiler.fuel start.rest.length)
    Compile.endFunction
  let (d, c) := parse start
  if c.errors.isEmpty then
    let (h, heap) := c.heap.alloc roots (.function d.function)
    (.ok h, heap)
  else (.error c.errors, c.heap)

end LoxMachine
