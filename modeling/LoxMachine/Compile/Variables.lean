import LoxMachine.Compile.Basic

/-!
# Scopes and variables

* `beginScope` and `endScope` delimit blocks. A variable that leaves its scope is popped, or moved
  off the stack if a closure holds it.
* `declareVariable` and `defineVariable` make a variable: in the outermost scope of the script it is
  a global one, anywhere else a local one, which cannot be used before its initializer has ended.
* `access` tells how a name is read and written: as a local variable, as a captured one, or as a
  global one.
-/

namespace LoxMachine

namespace Compile

/-! ## Scopes -/

def beginScope : Compile Unit := modifyDraft fun d => { d with depth := d.depth + 1 }

/-- Leave a scope with its variables. -/
def endScope : Compile Unit := do
  modifyDraft fun d => { d with depth := d.depth - 1 }
  let d := (← get).draft
  let leaves (l : Local) : Bool := !l.depth.any (· ≤ d.depth)
  (d.locals.takeWhile leaves).forM fun l => emit (if l.captured then .closeUpvalue else .pop)
  modifyDraft fun d => { d with locals := d.locals.dropWhile leaves }

/-! ## Declarations -/

/-- Add a local variable that is not yet initialized. -/
def addLocal (name : String) : Compile Unit := do
  if (← get).draft.locals.length = byteCount then error .tooManyLocals
  else modifyDraft fun d => { d with locals := { name, depth := none } :: d.locals }

/-- Declare the variable named by the token read last, if it is a local one. -/
def declareVariable : Compile Unit := do
  let d := (← get).draft
  if 0 < d.depth then
    let name ← lexeme
    if d.declaresHere name then error .alreadyDeclared
    addLocal name

/-- Read the name of a variable and declare it. The answer is the constant that names a global
one. -/
def parseVariable (e : Expectation) : Compile UInt8 := do
  consume .identifier e
  declareVariable
  if 0 < (← get).draft.depth then return 0
  nameConstant (← lexeme)

/-- Let the variable declared last be used from here on. -/
def markInitialized : Compile Unit :=
  modifyDraft fun d =>
    if d.depth = 0 then d
    else
      match d.locals with
      | [] => d
      | l :: locals => { d with locals := { l with depth := some d.depth } :: locals }

/-- Let a variable have the value on top of the stack. -/
def defineVariable (global : UInt8) : Compile Unit := do
  if 0 < (← get).draft.depth then markInitialized else emitWith .defineGlobal global

/-! ## Uses -/

/-- How a variable is read and written. -/
structure Access where
  getter : Opcode
  setter : Opcode
  operand : UInt8

/-- How the variable of a name is read and written here. -/
def access (name : String) : Compile Access := do
  let c ← get
  match Draft.findLocal name c.draft.locals with
  | some (slot, l) =>
    l.useFaults.forM error
    return ⟨.getLocal, .setLocal, UInt8.ofNat slot⟩
  | none =>
    match Draft.resolve name c.draft c.enclosing with
    | some r =>
      modify fun c => { c with draft := r.draft, enclosing := r.enclosing }
      r.faults.forM error
      return ⟨.getUpvalue, .setUpvalue, r.index⟩
    | none => return ⟨.getGlobal, .setGlobal, ← nameConstant name⟩

/-- Write a read of a variable. -/
def readVariable (name : String) : Compile Unit := do
  let a ← access name
  emitWith a.getter a.operand

end Compile

end LoxMachine
