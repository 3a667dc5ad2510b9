import LoxMachine.Compile.Variables
import LoxMachine.Number.Text

/-!
# Expressions

Expressions are parsed by precedence: each kind of token may start an expression, and may continue
one if it binds tightly enough.

* `Precedence` orders how tightly operators bind.
* `startExpression` and `continueExpression` are the rules for one token. They take the parser of
  operands as an argument.
* `parsePrecedence` ties the rules together. Every operand takes a token, so a number of steps that
  exceeds the number of tokens is enough.
-/

namespace LoxMachine

/-- How tightly an operator binds. -/
inductive Precedence where
  | none
  | assignment
  | or
  | and
  | equality
  | comparison
  | term
  | factor
  | unary
  | call
  | primary
  deriving DecidableEq, Repr

namespace Precedence

/-- The precedences as numbers, the loosest first. -/
def rank : Precedence → Nat
  | none => 0
  | assignment => 1
  | or => 2
  | and => 3
  | equality => 4
  | comparison => 5
  | term => 6
  | factor => 7
  | unary => 8
  | call => 9
  | primary => 10

instance : LE Precedence := ⟨fun p q => p.rank ≤ q.rank⟩

instance (p q : Precedence) : Decidable (p ≤ q) := inferInstanceAs (Decidable (p.rank ≤ q.rank))

/-- The next tighter precedence. The right operand of a binary operator has it, so that operators
of one precedence group to the left. -/
def next : Precedence → Precedence
  | none => assignment
  | assignment => or
  | or => and
  | and => equality
  | equality => comparison
  | comparison => term
  | term => factor
  | factor => unary
  | unary => call
  | call | primary => primary

/-- How tightly a token binds that continues an expression. -/
def ofToken : TokenKind → Precedence
  | .leftParen | .dot => call
  | .minus | .plus => term
  | .slash | .star => factor
  | .bangEqual | .equalEqual => equality
  | .greater | .greaterEqual | .less | .lessEqual => comparison
  | .kwAnd => and
  | .kwOr => or
  | _ => none

end Precedence

namespace Compile

/-! ## Rules for single tokens

In this section `operand` parses an expression of at least a given precedence, and `fuel` bounds
the length of lists. -/

section Rules

variable (operand : Precedence → Compile Unit) (fuel : Nat)

def grouping : Compile Unit := do
  operand .assignment
  consume .rightParen .rightParenAfterExpression

def unary (operator : TokenKind) : Compile Unit := do
  operand .unary
  emit (if operator = .bang then .not else .negate)

/-- The operations that a binary operator performs. -/
def binaryOperations : TokenKind → List Opcode
  | .bangEqual => [.equal, .not]
  | .equalEqual => [.equal]
  | .greater => [.greater]
  | .greaterEqual => [.less, .not]
  | .less => [.less]
  | .lessEqual => [.greater, .not]
  | .plus => [.add]
  | .minus => [.subtract]
  | .star => [.multiply]
  | .slash => [.divide]
  | _ => []

def binary (operator : TokenKind) : Compile Unit := do
  operand (Precedence.ofToken operator).next
  (binaryOperations operator).forM emit

def number : Compile Unit := do
  match Number.ofLiteral? (← lexeme) with
  | some n => emitConstant (.number n)
  | none => error .invalidNumber

/-- The contents of a string literal: what stands between the quotes. -/
def unquoted (literal : String) : String := String.ofList (literal.toList.drop 1).dropLast

def string : Compile Unit := do
  emitConstant (.obj (← intern (unquoted (← lexeme))))

/-- A variable: a read, or an assignment if `=` follows where one is allowed. -/
def name (canAssign : Bool) : Compile Unit := do
  let a ← access (← lexeme)
  if canAssign && (← check .equal) then
    advance
    operand .assignment
    emitWith a.setter a.operand
  else emitWith a.getter a.operand

def this : Compile Unit := do
  if (← get).classes.isEmpty then error .thisOutsideClass
  else readVariable (← lexeme)

/-- The most arguments of a call and parameters of a function. -/
def maxArity : Nat := 255

/-- Arguments after the first `count` ones, separated by commas. The answer counts them all. -/
def argumentsFrom : (n count : Nat) → Compile Nat
  | 0, count => return count
  | n + 1, count => do
    operand .assignment
    if count = maxArity then error .tooManyArguments
    if ← accept .comma then argumentsFrom n (count + 1) else return count + 1

/-- The arguments of a call up to the closing parenthesis. -/
def arguments : Compile UInt8 := do
  let count ← if ← check .rightParen then pure 0 else argumentsFrom operand fuel 0
  consume .rightParen .rightParenAfterArguments
  return UInt8.ofNat (min count maxArity)

def super : Compile Unit := do
  match (← get).classes with
  | [] => error .superOutsideClass
  | scope :: _ => if !scope.hasSuperclass then error .superWithoutSuperclass
  consume .dot .dotAfterSuper
  consume .identifier .superclassMethodName
  let name ← nameConstant (← lexeme)
  readVariable "this"
  if ← accept .leftParen then
    let count ← arguments operand fuel
    readVariable "super"
    emitWith .superInvoke name
    emitByte count
  else
    readVariable "super"
    emitWith .getSuper name

def call : Compile Unit := do
  let count ← arguments operand fuel
  emitWith .call count

/-- A property: an assignment, a method call or a read. -/
def property (canAssign : Bool) : Compile Unit := do
  consume .identifier .propertyName
  let name ← nameConstant (← lexeme)
  if canAssign && (← check .equal) then
    advance
    operand .assignment
    emitWith .setProperty name
  else if ← accept .leftParen then
    let count ← arguments operand fuel
    emitWith .invoke name
    emitByte count
  else emitWith .getProperty name

/-- The right operand is evaluated only if the left one counts as true. -/
def conjunction : Compile Unit := do
  let atEnd ← emitJump .jumpIfFalse
  emit .pop
  operand .and
  patchJump atEnd

/-- The right operand is evaluated only if the left one counts as false. -/
def disjunction : Compile Unit := do
  let onFalse ← emitJump .jumpIfFalse
  let atEnd ← emitJump .jump
  patchJump onFalse
  emit .pop
  operand .or
  patchJump atEnd

/-- The rule of a token that starts an expression. The answer is whether there is one. -/
def startExpression (kind : TokenKind) (canAssign : Bool) : Compile Bool := do
  match kind with
  | .leftParen => grouping operand; return true
  | .minus | .bang => unary operand kind; return true
  | .number => number; return true
  | .string => string; return true
  | .kwNil => emit .pushNil; return true
  | .kwTrue => emit .pushTrue; return true
  | .kwFalse => emit .pushFalse; return true
  | .identifier => name operand canAssign; return true
  | .kwThis => this; return true
  | .kwSuper => super operand fuel; return true
  | _ => return false

/-- The rule of a token that continues an expression. -/
def continueExpression (kind : TokenKind) (canAssign : Bool) : Compile Unit :=
  match kind with
  | .leftParen => call operand fuel
  | .dot => property operand fuel canAssign
  | .kwAnd => conjunction operand
  | .kwOr => disjunction operand
  | _ => binary operand kind

end Rules

/-! ## The parser -/

/-- Parse an expression of at least the given precedence, with operands nested to at most the given
number of steps. -/
def parsePrecedence : Nat → Precedence → Compile Unit
  | 0, _ => return
  | n + 1, p => do
    advance
    let canAssign : Bool := p ≤ Precedence.assignment
    if ← startExpression (parsePrecedence n) n (← get).previous.kind canAssign then
      let continues : Compile Bool := return p ≤ Precedence.ofToken (← get).current.kind
      let step : Compile Unit := do
        advance
        continueExpression (parsePrecedence n) n (← get).previous.kind canAssign
      loop continues step n
      if canAssign && (← check .equal) then
        advance
        error .invalidAssignmentTarget
    else error (.expected .expression)

/-- Parse an expression. -/
def expression (fuel : Nat) : Compile Unit := parsePrecedence fuel .assignment

end Compile

end LoxMachine
