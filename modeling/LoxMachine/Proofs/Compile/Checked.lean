import LoxMachine.Proofs.Compile.State

/-!
# The compiler with its checks

Operations of the compiler that are partial, a slice or a subtraction, have some result here even where they
should not be used, and its loops and recursive calls stop when they run out of steps. This is the same
compiler with a check in each of these places, and it fails when a check does.

* `taking` and `loop`: a call that takes no token though there are some left, a round that takes none, and
  a loop that runs out of steps.
* `patchJump`, `emitJump`, `emitLoop`: the distance of a jump would be negative, or its place not in the code.
* `endScope`: there is no scope to end. `access`: there is no variable with the index found.
* `string`: the text of a string has no quotes to take off. `endFunction`: a finished function cannot be
  listed.
* `compile` is the whole compiler, with the scanner: `tokens`.

The rules for expressions, statements and declarations follow the ones without checks line by line.
-/

namespace LoxMachine

/-- An action of the compiler that may fail. -/
abbrev Checked := StateT Compiler Option

/-- An action without checks does not fail. -/
instance : MonadLift Compile Checked := ⟨fun x c => some (x c)⟩

namespace Checked

open Compile (maxArity startsStatement)

variable {α : Type}

/-! ## The scanner -/

/-- Take the next token off. It ends before the text does. -/
def next (s : Source) : Option (Token × Source) := do
  match Source.skip false s.line s.rest with
  | ⟨[], _⟩ => pure ()
  | ⟨c :: rest, _⟩ => guard ((Token.extent c rest).2 ≤ rest.length)
  return s.next

/-- Prepend tokens up to `eof`. It is there after at most `n` of them. -/
def tokensOnto : (n : Nat) → List Token → Source → Option (List Token)
  | 0, _, _ => failure
  | n + 1, taken, s => do
    let (token, rest) ← next s
    if token.kind = .eof then return token :: taken else tokensOnto n (token :: taken) rest

def tokens (s : Source) : Option (List Token) :=
  return (← tokensOnto (s.rest.length + 1) [] s).reverse

/-! ## Progress -/

/-- How many tokens are left. -/
def left : Checked Nat := return (← get).left

/-- Run an action that has to take a token, unless there is none left. -/
def taking (x : Checked α) : Checked α := do
  let before ← left
  let a ← x
  guard (before = 0 ∨ (← left) < before)
  return a

/-- Run an action as long as a condition holds, which it does less often than the given number of times.
There are tokens left for every round, and it takes one. -/
def loop (condition : Compile Bool) (body : Checked Unit) : Nat → Checked Unit
  | 0 => failure
  | n + 1 => do
    if ← condition then
      guard ((← left) ≠ 0)
      taking body
      loop condition body n

def synchronize (fuel : Nat) : Checked Unit := do
  (modify fun c => { c with panicking := false } : Compile Unit)
  let inside : Compile Bool := do
    let c ← get
    return c.current.kind != .eof && c.previous.kind != .semicolon
      && !startsStatement c.current.kind
  loop inside Compile.advance fuel

/-! ## Code -/

def emitJump (op : Opcode) : Checked Nat := do
  let offset ← Compile.emitJump op
  guard (2 ≤ (← get).draft.chunk.size)
  return offset

/-- The distance starts after the two bytes at `offset`. -/
def patchJump (offset : Nat) : Checked Unit := do
  guard (offset + 2 ≤ (← get).draft.chunk.size)
  Compile.patchJump offset

def emitLoop (start : Nat) : Checked Unit := do
  guard (start ≤ (← get).draft.chunk.size)
  Compile.emitLoop start

/-- The code of a finished function, as it is reported. -/
def listing (heap : Heap) (d : Draft) : Except Fault String := do
  Listing.chunk heap d.chunk (← Listing.title heap d.function)

/-- The finished function can be listed, whether it is or not. -/
def endFunction : Checked Draft := do
  let d ← Compile.endFunction
  guard (listing (← get).heap d).isOk
  return d

/-! ## Variables -/

def endScope : Checked Unit := do
  guard (0 < (← get).draft.depth)
  Compile.endScope

/-- The byte that names a variable is the index of one. -/
def Indexes (name : String) (d : Draft) : Prop :=
  ∀ found ∈ Draft.findLocal name d.locals, (UInt8.ofNat found.1).toNat < d.locals.length

instance (name : String) (d : Draft) : Decidable (Indexes name d) :=
  inferInstanceAs (Decidable (∀ found ∈ Draft.findLocal name d.locals, _))

def access (name : String) : Checked Compile.Access := do
  let c ← get
  guard (∀ d ∈ c.draft :: c.enclosing, Indexes name d)
  Compile.access name

def readVariable (name : String) : Checked Unit := do
  let a ← access name
  Compile.emitWith a.getter a.operand

/-! ## Expressions -/

section Rules

variable (operand : Precedence → Checked Unit) (fuel : Nat)

def grouping : Checked Unit := do
  operand .assignment
  Compile.consume .rightParen .rightParenAfterExpression

def unary (operator : TokenKind) : Checked Unit := do
  operand .unary
  Compile.emit (if operator = .bang then .not else .negate)

def binary (operator : TokenKind) : Checked Unit := do
  operand (Precedence.ofToken operator).next
  ((Compile.binaryOperations operator).forM Compile.emit : Compile Unit)

/-- The text of a string has two quotes. -/
def string : Checked Unit := do
  let text := (← Compile.lexeme).toList
  guard (2 ≤ text.length ∧ text.head? = some '"' ∧ text.getLast? = some '"')
  Compile.string

def name (canAssign : Bool) : Checked Unit := do
  let a ← access (← Compile.lexeme)
  if canAssign && (← Compile.check .equal) then
    Compile.advance
    operand .assignment
    Compile.emitWith a.setter a.operand
  else Compile.emitWith a.getter a.operand

def this : Checked Unit := do
  if (← get).classes.isEmpty then Compile.error .thisOutsideClass
  else readVariable (← Compile.lexeme)

/-- There is another argument only if a token was taken for this one. -/
def argumentsFrom : (n count : Nat) → Checked Nat
  | 0, _ => failure
  | n + 1, count => do
    let before ← left
    operand .assignment
    if count = maxArity then Compile.error .tooManyArguments
    if ← Compile.accept .comma then
      guard ((← left) < before)
      argumentsFrom n (count + 1)
    else return count + 1

def arguments : Checked UInt8 := do
  let count ← if ← Compile.check .rightParen then pure 0 else argumentsFrom operand fuel 0
  Compile.consume .rightParen .rightParenAfterArguments
  return UInt8.ofNat (min count maxArity)

def super : Checked Unit := do
  match (← get).classes with
  | [] => Compile.error .superOutsideClass
  | scope :: _ => if !scope.hasSuperclass then Compile.error .superWithoutSuperclass
  Compile.consume .dot .dotAfterSuper
  Compile.consume .identifier .superclassMethodName
  let name ← Compile.nameConstant (← Compile.lexeme)
  readVariable "this"
  if ← Compile.accept .leftParen then
    let count ← arguments operand fuel
    readVariable "super"
    Compile.emitWith .superInvoke name
    Compile.emitByte count
  else
    readVariable "super"
    Compile.emitWith .getSuper name

def call : Checked Unit := do
  let count ← arguments operand fuel
  Compile.emitWith .call count

def property (canAssign : Bool) : Checked Unit := do
  Compile.consume .identifier .propertyName
  let name ← Compile.nameConstant (← Compile.lexeme)
  if canAssign && (← Compile.check .equal) then
    Compile.advance
    operand .assignment
    Compile.emitWith .setProperty name
  else if ← Compile.accept .leftParen then
    let count ← arguments operand fuel
    Compile.emitWith .invoke name
    Compile.emitByte count
  else Compile.emitWith .getProperty name

def conjunction : Checked Unit := do
  let atEnd ← emitJump .jumpIfFalse
  Compile.emit .pop
  operand .and
  patchJump atEnd

def disjunction : Checked Unit := do
  let onFalse ← emitJump .jumpIfFalse
  let atEnd ← emitJump .jump
  patchJump onFalse
  Compile.emit .pop
  operand .or
  patchJump atEnd

def startExpression (kind : TokenKind) (canAssign : Bool) : Checked Bool := do
  match kind with
  | .leftParen => grouping operand; return true
  | .minus | .bang => unary operand kind; return true
  | .number => Compile.number; return true
  | .string => string; return true
  | .kwNil => Compile.emit .pushNil; return true
  | .kwTrue => Compile.emit .pushTrue; return true
  | .kwFalse => Compile.emit .pushFalse; return true
  | .identifier => name operand canAssign; return true
  | .kwThis => this; return true
  | .kwSuper => super operand fuel; return true
  | _ => return false

def continueExpression (kind : TokenKind) (canAssign : Bool) : Checked Unit :=
  match kind with
  | .leftParen => call operand fuel
  | .dot => property operand fuel canAssign
  | .kwAnd => conjunction operand
  | .kwOr => disjunction operand
  | _ => binary operand kind

/-- An expression of at least the precedence `p`, if its operands are parsed by `operand`. -/
def precedenceRule (p : Precedence) : Checked Unit := do
  Compile.advance
  let canAssign : Bool := p ≤ Precedence.assignment
  if ← startExpression operand fuel (← get).previous.kind canAssign then
    let continues : Compile Bool := return p ≤ Precedence.ofToken (← get).current.kind
    let step : Checked Unit := do
      Compile.advance
      continueExpression operand fuel (← get).previous.kind canAssign
    loop continues step fuel
    if canAssign && (← Compile.check .equal) then
      Compile.advance
      Compile.error .invalidAssignmentTarget
  else Compile.error (.expected .expression)

end Rules

def parsePrecedence : Nat → Precedence → Checked Unit
  | 0, _ => failure
  | n + 1, p => taking (precedenceRule (parsePrecedence n) n p)

def expression (fuel : Nat) : Checked Unit := parsePrecedence fuel .assignment

/-! ## Statements and declarations -/

section Rules

variable (expr stmt decl : Checked Unit) (fuel : Nat)

def block : Checked Unit := taking do
  let inside : Compile Bool := return !(← Compile.check .rightBrace) && !(← Compile.check .eof)
  loop inside decl fuel
  Compile.consume .rightBrace .rightBraceAfterBlock

def printStatement : Checked Unit := do
  expr
  Compile.consume .semicolon .semicolonAfterValue
  Compile.emit .print

def expressionStatement : Checked Unit := do
  expr
  Compile.consume .semicolon .semicolonAfterExpression
  Compile.emit .pop

def returnStatement : Checked Unit := do
  if (← get).draft.kind = .script then Compile.error .returnAtTopLevel
  if ← Compile.accept .semicolon then Compile.emitReturn
  else
    if (← get).draft.kind = .initializer then Compile.error .returnValueFromInitializer
    expr
    Compile.consume .semicolon .semicolonAfterReturnValue
    Compile.emit .ret

def ifStatement : Checked Unit := do
  Compile.consume .leftParen .leftParenAfterIf
  expr
  Compile.consume .rightParen .rightParenAfterCondition
  let onFalse ← emitJump .jumpIfFalse
  Compile.emit .pop
  stmt
  let atEnd ← emitJump .jump
  patchJump onFalse
  Compile.emit .pop
  if ← Compile.accept .kwElse then stmt
  patchJump atEnd

def whileStatement : Checked Unit := do
  let start ← Compile.codeSize
  Compile.consume .leftParen .leftParenAfterWhile
  expr
  Compile.consume .rightParen .rightParenAfterCondition
  let onFalse ← emitJump .jumpIfFalse
  Compile.emit .pop
  stmt
  emitLoop start
  patchJump onFalse
  Compile.emit .pop

def varDeclaration : Checked Unit := do
  let global ← Compile.parseVariable .variableName
  if ← Compile.accept .equal then expr else Compile.emit .pushNil
  Compile.consume .semicolon .semicolonAfterVariable
  Compile.defineVariable global

def forInitializer : Checked Unit := do
  if ← Compile.accept .semicolon then return
  if ← Compile.accept .kwVar then varDeclaration expr else expressionStatement expr

def forCondition : Checked (Option Nat) := do
  if ← Compile.accept .semicolon then return none
  expr
  Compile.consume .semicolon .semicolonAfterLoopCondition
  let onFalse ← emitJump .jumpIfFalse
  Compile.emit .pop
  return some onFalse

def forIncrement (start : Nat) : Checked Nat := do
  if ← Compile.accept .rightParen then return start
  let toBody ← emitJump .jump
  let increment ← Compile.codeSize
  expr
  Compile.emit .pop
  Compile.consume .rightParen .rightParenAfterForClauses
  emitLoop start
  patchJump toBody
  return increment

def forStatement : Checked Unit := do
  Compile.beginScope
  Compile.consume .leftParen .leftParenAfterFor
  forInitializer expr
  let start ← Compile.codeSize
  let leave ← forCondition expr
  let start ← forIncrement expr start
  stmt
  emitLoop start
  if let some onFalse := leave then
    patchJump onFalse
    Compile.emit .pop
  endScope

def statementRule : Checked Unit := do
  if ← Compile.accept .kwPrint then printStatement expr
  else if ← Compile.accept .kwFor then forStatement expr stmt
  else if ← Compile.accept .kwIf then ifStatement expr stmt
  else if ← Compile.accept .kwReturn then returnStatement expr
  else if ← Compile.accept .kwWhile then whileStatement expr stmt
  else if ← Compile.accept .leftBrace then
    Compile.beginScope
    block decl fuel
    endScope
  else expressionStatement expr

/-- There is another parameter only if a token was taken for this one. -/
def parameters : (n : Nat) → Checked Unit
  | 0 => failure
  | n + 1 => do
    let before ← left
    Compile.modifyDraft fun d => { d with arity := d.arity + 1 }
    if maxArity < (← get).draft.arity then Compile.errorAtCurrent .tooManyParameters
    Compile.defineVariable (← Compile.parseVariable .parameterName)
    if ← Compile.accept .comma then
      guard ((← left) < before)
      parameters n

def functionBody (kind : FunctionKind) : Checked Unit := taking do
  Compile.beginFunction kind
  Compile.beginScope
  Compile.consume .leftParen .leftParenAfterFunctionName
  if !(← Compile.check .rightParen) then parameters fuel
  Compile.consume .rightParen .rightParenAfterParameters
  Compile.consume .leftBrace .leftBraceBeforeFunctionBody
  block decl fuel
  let d ← endFunction
  let h ← Compile.alloc (.function d.function)
  Compile.emitWith .closure (← Compile.makeConstant (.obj h))
  (d.captures.forM fun c => do
    Compile.emitByte (if c.isLocal then 1 else 0)
    Compile.emitByte c.index : Compile Unit)

def funDeclaration : Checked Unit := do
  let global ← Compile.parseVariable .functionName
  Compile.markInitialized
  functionBody decl fuel .function
  Compile.defineVariable global

def method : Checked Unit := do
  Compile.consume .identifier .methodName
  let name ← Compile.lexeme
  let constant ← Compile.nameConstant name
  functionBody decl fuel (if name = "init" then .initializer else .method)
  Compile.emitWith .method constant

def superclass (name : String) : Checked Unit := do
  Compile.consume .identifier .superclassName
  readVariable (← Compile.lexeme)
  if name = (← Compile.lexeme) then Compile.error .inheritsFromItself
  Compile.beginScope
  Compile.addLocal "super"
  Compile.defineVariable 0
  readVariable name
  Compile.emit .inherit
  (modify fun c => { c with classes := { hasSuperclass := true } :: c.classes.drop 1 } : Compile Unit)

def classBody (name : String) : Checked Unit := do
  readVariable name
  Compile.consume .leftBrace .leftBraceBeforeClassBody
  let inside : Compile Bool := return !(← Compile.check .rightBrace) && !(← Compile.check .eof)
  loop inside (method decl fuel) fuel
  Compile.consume .rightBrace .rightBraceAfterClassBody
  Compile.emit .pop
  let scope := (← get).classes.head?
  (modify fun c => { c with classes := c.classes.drop 1 } : Compile Unit)
  if scope.any (·.hasSuperclass) then endScope

def classDeclaration : Checked Unit := do
  Compile.consume .identifier .className
  let name ← Compile.lexeme
  let constant ← Compile.nameConstant name
  Compile.declareVariable
  Compile.emitWith .cls constant
  Compile.defineVariable constant
  (modify fun c => { c with classes := {} :: c.classes } : Compile Unit)
  if ← Compile.accept .less then superclass name
  classBody decl fuel name

def declarationRule : Checked Unit := do
  if ← Compile.accept .kwClass then classDeclaration decl fuel
  else if ← Compile.accept .kwFun then funDeclaration decl fuel
  else if ← Compile.accept .kwVar then varDeclaration expr
  else stmt
  if (← get).panicking then synchronize fuel

end Rules

mutual

def statement : Nat → Checked Unit
  | 0 => failure
  | n + 1 => taking (statementRule (expression n) (statement n) (declaration n) n)

def declaration : Nat → Checked Unit
  | 0 => failure
  | n + 1 => taking (declarationRule (expression n) (statement n) (declaration n) n)

end

/-! ## Sources -/

def script (fuel : Nat) : Checked Unit := do
  Compile.advance
  loop (return !(← Compile.accept .eof)) (declaration fuel) fuel

def parse (fuel : Nat) : Checked Draft := do
  script fuel
  endFunction

/-- Compile a source text, or fail. -/
def compile (source : String) (heap : Heap) (roots : Thunk (List Handle)) :
    Option (Except (Array CompileError) Handle × Heap) := do
  let rest ← tokens (.ofString source)
  let (d, c) ← parse (Compiler.fuel rest.length) { Compiler.start source heap roots with rest }
  if c.errors.isEmpty then
    let (h, heap) := c.heap.alloc roots (.function d.function)
    return (.ok h, heap)
  else return (.error c.errors, c.heap)

end Checked

end LoxMachine
