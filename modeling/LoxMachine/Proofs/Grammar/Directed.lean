import LoxMachine.Proofs.Grammar.Trees

/-!
# Compiling along a tree

What the compiler does when it is told the tree that the tokens to come are read from: it never looks
at a token to decide what to do next, and reads each one with `advance`.

* `Expression.run`, `Statement.run`, `Declaration.run` and `Routine.run` follow the tree.
-/

namespace LoxMachine

open Compile

namespace UnaryOperator

def opcode : UnaryOperator → Opcode
  | not => .not
  | negate => .negate

end UnaryOperator

namespace BinaryOperator

def opcodes : BinaryOperator → List Opcode
  | equal => [.equal]
  | notEqual => [.equal, .not]
  | greater => [.greater]
  | greaterEqual => [.less, .not]
  | less => [.less]
  | lessEqual => [.greater, .not]
  | add => [.add]
  | subtract => [.subtract]
  | multiply => [.multiply]
  | divide => [.divide]

end BinaryOperator

/-- Report an error if something is wrong. -/
def Compile.errorIf (p : Prop) [Decidable p] (d : Diagnosis) : Compile Unit :=
  if p then error d else pure ()

/-! ## Expressions -/

namespace Expression

/-- The number of arguments as the operand of a call. -/
def argumentCount (arguments : List Expression) : UInt8 := UInt8.ofNat (min arguments.length maxArity)

/-- Complain about a `super` that has no meaning. -/
def checkSuper : Compile Unit := do
  match (← get).classes with
  | [] => error .superOutsideClass
  | scope :: _ => if !scope.hasSuperclass then error .superWithoutSuperclass

mutual

def run : Expression → Compile Unit
  | nil => do advance; emit .pushNil
  | bool value => do advance; emit (if value then .pushTrue else .pushFalse)
  | number literal => do
    advance
    match Number.ofLiteral? literal with
    | some n => emitConstant (.number n)
    | none => error .invalidNumber
  | string literal => do advance; emitConstant (.obj (← intern (unquoted literal)))
  | read name => do advance; readVariable name
  | this => do
    advance
    if (← get).classes.isEmpty then error .thisOutsideClass else readVariable "this"
  | grouping e => do advance; e.run; advance
  | superProperty name => do
    advance; checkSuper; advance; advance
    let constant ← nameConstant name
    readVariable "this"
    readVariable "super"
    emitWith .getSuper constant
  | superInvoke name arguments => do
    advance; checkSuper; advance; advance
    let constant ← nameConstant name
    readVariable "this"
    advance; runArguments arguments; advance
    readVariable "super"
    emitWith .superInvoke constant
    emitByte (argumentCount arguments)
  | call callee arguments => do
    callee.run
    advance; runArguments arguments; advance
    emitWith .call (argumentCount arguments)
  | property target name => do
    target.run
    advance; advance
    emitWith .getProperty (← nameConstant name)
  | invoke target name arguments => do
    target.run
    advance; advance
    let constant ← nameConstant name
    advance; runArguments arguments; advance
    emitWith .invoke constant
    emitByte (argumentCount arguments)
  | unary operator e => do advance; e.run; emit operator.opcode
  | binary operator left right => do
    left.run
    advance
    right.run
    operator.opcodes.forM emit
  | and left right => do
    left.run
    advance
    let atEnd ← emitJump .jumpIfFalse
    emit .pop
    right.run
    patchJump atEnd
  | or left right => do
    left.run
    advance
    let onFalse ← emitJump .jumpIfFalse
    let atEnd ← emitJump .jump
    patchJump onFalse
    emit .pop
    right.run
    patchJump atEnd
  | assign name value => do
    advance
    let a ← access name
    advance
    value.run
    emitWith a.setter a.operand
  | setProperty target name value => do
    target.run
    advance; advance
    let constant ← nameConstant name
    advance
    value.run
    emitWith .setProperty constant

def runArguments : List Expression → Compile Unit
  | [] => pure ()
  | e :: more => do e.run; runMore 1 more

/-- The arguments after the first `count` ones. -/
def runMore (count : Nat) : List Expression → Compile Unit
  | [] => pure ()
  | e :: more => do
    advance
    e.run
    errorIf (count = maxArity) .tooManyArguments
    runMore (count + 1) more

end

end Expression

/-! ## Parts of statements -/

/-- Declare a variable if it is a local one. -/
def declareName (name : String) : Compile Unit := do
  let d := (← get).draft
  if 0 < d.depth then
    errorIf (d.declaresHere name) .alreadyDeclared
    addLocal name

/-- The name of a variable. The answer is the constant that names a global one. -/
def runName (name : String) : Compile UInt8 := do
  advance
  declareName name
  if 0 < (← get).draft.depth then return 0
  nameConstant name

/-- The initial value of a variable, up to the semicolon. -/
def runValue : Option Expression → Compile Unit
  | none => emit .pushNil
  | some e => do advance; e.run

/-- A variable declaration after `var`. -/
def runVariable (name : String) (value : Option Expression) : Compile Unit := do
  let global ← runName name
  runValue value
  advance
  defineVariable global

def Initializer.run : Initializer → Compile Unit
  | none => advance
  | var name value => do advance; runVariable name value
  | expression e => do e.run; advance; emit .pop

/-- The condition of a `for` loop and the semicolon after it. The answer is the jump that leaves the
loop, if there is one. -/
def runCondition : Option Expression → Compile (Option Nat)
  | none => do advance; return none
  | some e => do
    e.run
    advance
    let onFalse ← emitJump .jumpIfFalse
    emit .pop
    return some onFalse

/-- The increment of a `for` loop that starts at `start`, and the parenthesis after it. The answer is
where the body goes back to. -/
def runIncrement (start : Nat) : Option Expression → Compile Nat
  | none => do advance; return start
  | some e => do
    let toBody ← emitJump .jump
    let increment ← codeSize
    e.run
    emit .pop
    advance
    emitLoop start
    patchJump toBody
    return increment

/-- The end of a `for` loop. -/
def runLeave (leave : Option Nat) : Compile Unit := do
  if let some onFalse := leave then
    patchJump onFalse
    emit .pop

/-- Count a parameter. -/
def countParameter : Compile Unit := do
  modifyDraft fun d => { d with arity := d.arity + 1 }
  if maxArity < (← get).draft.arity then errorAtCurrent .tooManyParameters

/-- A parameter. -/
def runParameter (name : String) : Compile Unit := do
  countParameter
  defineVariable (← runName name)

def runParameters : List String → Compile Unit
  | [] => pure ()
  | p :: more => do
    runParameter p
    more.forM fun q => do advance; runParameter q

/-- Start a function. -/
def beginNamed (kind : FunctionKind) (name : String) : Compile Unit := do
  let name ← intern name
  modify fun c =>
    { c with draft := .start kind (some name), enclosing := c.draft :: c.enclosing }

/-- Write the instruction that makes a closure. -/
def emitClosure (d : Draft) : Compile Unit := do
  let h ← alloc (.function d.function)
  emitWith .closure (← makeConstant (.obj h))
  d.captures.forM fun c => do
    emitByte (if c.isLocal then 1 else 0)
    emitByte c.index

/-- The superclass of a class. -/
def runSuperclass (name superclass : String) : Compile Unit := do
  advance
  advance
  readVariable superclass
  errorIf (name = superclass) .inheritsFromItself
  beginScope
  addLocal "super"
  defineVariable 0
  readVariable name
  emit .inherit
  modify fun c => { c with classes := { hasSuperclass := true } :: c.classes.drop 1 }

/-- The end of a class. -/
def leaveClass : Compile Unit := do
  emit .pop
  let scope := (← get).classes.head?
  modify fun c => { c with classes := c.classes.drop 1 }
  if scope.any (·.hasSuperclass) then endScope

/-! ## Statements and declarations

What stands after the first token of a statement or declaration. The actions `body`, `otherwise` and
`methods` compile the parts. -/

def runIf (condition : Expression) (body : Compile Unit) : Compile Unit := do
  advance; condition.run; advance
  let onFalse ← emitJump .jumpIfFalse
  emit .pop
  body
  let atEnd ← emitJump .jump
  patchJump onFalse
  emit .pop
  patchJump atEnd

def runIfElse (condition : Expression) (body otherwise : Compile Unit) : Compile Unit := do
  advance; condition.run; advance
  let onFalse ← emitJump .jumpIfFalse
  emit .pop
  body
  let atEnd ← emitJump .jump
  patchJump onFalse
  emit .pop
  advance
  otherwise
  patchJump atEnd

def runWhile (condition : Expression) (body : Compile Unit) : Compile Unit := do
  let start ← codeSize
  advance; condition.run; advance
  let onFalse ← emitJump .jumpIfFalse
  emit .pop
  body
  emitLoop start
  patchJump onFalse
  emit .pop

def runFor (init : Initializer) (condition increment : Option Expression) (body : Compile Unit) :
    Compile Unit := do
  beginScope
  advance
  init.run
  let start ← codeSize
  let leave ← runCondition condition
  let start ← runIncrement start increment
  body
  emitLoop start
  runLeave leave
  endScope

/-- The value that a function returns. -/
def runResult : Option Expression → Compile Unit
  | none => do advance; emitReturn
  | some e => do
    errorIf ((← get).draft.kind = .initializer) .returnValueFromInitializer
    e.run
    advance
    emit .ret

def runReturn (value : Option Expression) : Compile Unit := do
  errorIf ((← get).draft.kind = .script) .returnAtTopLevel
  runResult value

def runBlock (body : Compile Unit) : Compile Unit := do
  beginScope
  body
  advance
  endScope

def runFunction (name : String) (body : Compile Unit) : Compile Unit := do
  let global ← runName name
  markInitialized
  body
  defineVariable global

def runClass (name : String) (superclass : Option String) (methods : Compile Unit) : Compile Unit := do
  advance
  let constant ← nameConstant name
  declareName name
  emitWith .cls constant
  defineVariable constant
  modify fun c => { c with classes := {} :: c.classes }
  if let some s := superclass then runSuperclass name s
  readVariable name
  advance
  methods
  advance
  leaveClass

/-- A method, from its name on. -/
def runMethod (name : String) (body : Compile Unit) : Compile Unit := do
  advance
  let constant ← nameConstant name
  body
  emitWith .method constant

/-- What a method is compiled for. -/
def methodKind (name : String) : FunctionKind := if name = "init" then .initializer else .method

mutual

def Statement.run : Statement → Compile Unit
  | .expression e => do e.run; advance; emit .pop
  | .print e => do advance; e.run; advance; emit .print
  | .block body => do advance; runBlock (Declaration.runList body)
  | .ifThen condition body => do advance; runIf condition body.run
  | .ifThenElse condition body otherwise => do advance; runIfElse condition body.run otherwise.run
  | .whileLoop condition body => do advance; runWhile condition body.run
  | .forLoop init condition increment body => do advance; runFor init condition increment body.run
  | .ret value => do advance; runReturn value

def Declaration.run : Declaration → Compile Unit
  | .statement s => s.run
  | .var name value => do advance; runVariable name value
  | .function f => do advance; runFunction f.name (f.run .function)
  | .cls name superclass methods => do advance; runClass name superclass (Routine.runMethods methods)

/-- A function or a method, whose name has been read. -/
def Routine.run (kind : FunctionKind) : Routine → Compile Unit
  | .mk name parameters body => do
    beginNamed kind name
    beginScope
    advance; runParameters parameters; advance
    advance
    Declaration.runList body
    advance
    emitClosure (← endFunction)

def Declaration.runList : List Declaration → Compile Unit
  | [] => pure ()
  | d :: more => do d.run; Declaration.runList more

def Routine.runMethods : List Routine → Compile Unit
  | [] => pure ()
  | .mk name parameters body :: more => do
    runMethod name ((Routine.mk name parameters body).run (methodKind name))
    Routine.runMethods more

end

end LoxMachine
