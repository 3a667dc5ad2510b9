import LoxMachine.Compile.Expressions

/-!
# Statements and declarations

The rules of statements and declarations take the parsers of what they contain as arguments;
`statement` and `declaration` tie them together. A block, a branch or a body is always preceded by a
token of its own, so a number of steps that exceeds twice the number of tokens is enough.

* `forStatement` writes the increment before the body, and jumps around it.
* `functionBody` compiles a function in a draft of its own and writes the instruction that makes its
  closure.
* `classDeclaration` keeps the class on the stack while its methods are added, and a superclass in a
  local variable named `super`.
-/

namespace LoxMachine

namespace Compile

/-! ## Rules

In this section `expr`, `stmt` and `decl` parse an expression, a statement and a declaration, and
`fuel` bounds the length of lists. -/

section Rules

variable (expr stmt decl : Compile Unit) (fuel : Nat)

/-- Declarations up to the closing brace. -/
def block : Compile Unit := do
  let inside : Compile Bool := return !(← check .rightBrace) && !(← check .eof)
  loop inside decl fuel
  consume .rightBrace .rightBraceAfterBlock

def printStatement : Compile Unit := do
  expr
  consume .semicolon .semicolonAfterValue
  emit .print

def expressionStatement : Compile Unit := do
  expr
  consume .semicolon .semicolonAfterExpression
  emit .pop

def returnStatement : Compile Unit := do
  if (← get).draft.kind = .script then error .returnAtTopLevel
  if ← accept .semicolon then emitReturn
  else
    if (← get).draft.kind = .initializer then error .returnValueFromInitializer
    expr
    consume .semicolon .semicolonAfterReturnValue
    emit .ret

/-- The condition stays on the stack across the jump and is popped on either branch. -/
def ifStatement : Compile Unit := do
  consume .leftParen .leftParenAfterIf
  expr
  consume .rightParen .rightParenAfterCondition
  let onFalse ← emitJump .jumpIfFalse
  emit .pop
  stmt
  let atEnd ← emitJump .jump
  patchJump onFalse
  emit .pop
  if ← accept .kwElse then stmt
  patchJump atEnd

def whileStatement : Compile Unit := do
  let start ← codeSize
  consume .leftParen .leftParenAfterWhile
  expr
  consume .rightParen .rightParenAfterCondition
  let onFalse ← emitJump .jumpIfFalse
  emit .pop
  stmt
  emitLoop start
  patchJump onFalse
  emit .pop

def varDeclaration : Compile Unit := do
  let global ← parseVariable .variableName
  if ← accept .equal then expr else emit .pushNil
  consume .semicolon .semicolonAfterVariable
  defineVariable global

/-- The initializer of a `for` loop. -/
def forInitializer : Compile Unit := do
  if ← accept .semicolon then return
  if ← accept .kwVar then varDeclaration expr else expressionStatement expr

/-- The condition of a `for` loop. The answer is the jump that leaves the loop, if there is one. -/
def forCondition : Compile (Option Nat) := do
  if ← accept .semicolon then return none
  expr
  consume .semicolon .semicolonAfterLoopCondition
  let onFalse ← emitJump .jumpIfFalse
  emit .pop
  return some onFalse

/-- The increment of a `for` loop that starts at `start`. The answer is where the body goes back
to. -/
def forIncrement (start : Nat) : Compile Nat := do
  if ← accept .rightParen then return start
  let toBody ← emitJump .jump
  let increment ← codeSize
  expr
  emit .pop
  consume .rightParen .rightParenAfterForClauses
  emitLoop start
  patchJump toBody
  return increment

def forStatement : Compile Unit := do
  beginScope
  consume .leftParen .leftParenAfterFor
  forInitializer expr
  let start ← codeSize
  let leave ← forCondition expr
  let start ← forIncrement expr start
  stmt
  emitLoop start
  if let some onFalse := leave then
    patchJump onFalse
    emit .pop
  endScope

/-- The rule of a statement. -/
def statementRule : Compile Unit := do
  if ← accept .kwPrint then printStatement expr
  else if ← accept .kwFor then forStatement expr stmt
  else if ← accept .kwIf then ifStatement expr stmt
  else if ← accept .kwReturn then returnStatement expr
  else if ← accept .kwWhile then whileStatement expr stmt
  else if ← accept .leftBrace then
    beginScope
    block decl fuel
    endScope
  else expressionStatement expr

/-- Parameters, separated by commas, at most `n` of them. -/
def parameters : (n : Nat) → Compile Unit
  | 0 => return
  | n + 1 => do
    modifyDraft fun d => { d with arity := d.arity + 1 }
    if maxArity < (← get).draft.arity then errorAtCurrent .tooManyParameters
    defineVariable (← parseVariable .parameterName)
    if ← accept .comma then parameters n

/-- A function from its parameters to the end of its body, named by the token read last. -/
def functionBody (kind : FunctionKind) : Compile Unit := do
  beginFunction kind
  beginScope
  consume .leftParen .leftParenAfterFunctionName
  if !(← check .rightParen) then parameters fuel
  consume .rightParen .rightParenAfterParameters
  consume .leftBrace .leftBraceBeforeFunctionBody
  block decl fuel
  let d ← endFunction
  let h ← alloc (.function d.function)
  emitWith .closure (← makeConstant (.obj h))
  d.captures.forM fun c => do
    emitByte (if c.isLocal then 1 else 0)
    emitByte c.index

/-- A function may call itself, so its name can be used in its body. -/
def funDeclaration : Compile Unit := do
  let global ← parseVariable .functionName
  markInitialized
  functionBody decl fuel .function
  defineVariable global

def method : Compile Unit := do
  consume .identifier .methodName
  let name ← lexeme
  let constant ← nameConstant name
  functionBody decl fuel (if name = "init" then .initializer else .method)
  emitWith .method constant

/-- The superclass of the class `name`: its methods are copied, and it stays reachable as `super`
in a scope around the methods. -/
def superclass (name : String) : Compile Unit := do
  consume .identifier .superclassName
  readVariable (← lexeme)
  if name = (← lexeme) then error .inheritsFromItself
  beginScope
  addLocal "super"
  defineVariable 0
  readVariable name
  emit .inherit
  modify fun c => { c with classes := { hasSuperclass := true } :: c.classes.drop 1 }

/-- The methods of the class `name`, and the end of the scope around them if there is one. -/
def classBody (name : String) : Compile Unit := do
  readVariable name
  consume .leftBrace .leftBraceBeforeClassBody
  let inside : Compile Bool := return !(← check .rightBrace) && !(← check .eof)
  loop inside (method decl fuel) fuel
  consume .rightBrace .rightBraceAfterClassBody
  emit .pop
  let scope := (← get).classes.head?
  modify fun c => { c with classes := c.classes.drop 1 }
  if scope.any (·.hasSuperclass) then endScope

def classDeclaration : Compile Unit := do
  consume .identifier .className
  let name ← lexeme
  let constant ← nameConstant name
  declareVariable
  emitWith .cls constant
  defineVariable constant
  modify fun c => { c with classes := {} :: c.classes }
  if ← accept .less then superclass name
  classBody decl fuel name

/-- The rule of a declaration. -/
def declarationRule : Compile Unit := do
  if ← accept .kwClass then classDeclaration decl fuel
  else if ← accept .kwFun then funDeclaration decl fuel
  else if ← accept .kwVar then varDeclaration expr
  else stmt
  if (← get).panicking then synchronize fuel

end Rules

/-! ## The parser -/

mutual

/-- Parse a statement, nested to at most the given number of steps. -/
def statement : Nat → Compile Unit
  | 0 => return
  | n + 1 => statementRule (expression n) (statement n) (declaration n) n

/-- Parse a declaration, nested to at most the given number of steps. -/
def declaration : Nat → Compile Unit
  | 0 => return
  | n + 1 => declarationRule (expression n) (statement n) (declaration n) n

end

end Compile

end LoxMachine
