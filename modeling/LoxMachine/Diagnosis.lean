import LoxMachine.Token

/-!
# Diagnoses of rejected sources

* `Diagnosis` is what is wrong with a source, `Diagnosis.message` its wording.
* `CompileError` is a diagnosis with the place it was made at, `CompileError.text` the reported
  line.
-/

namespace LoxMachine

/-- What the grammar asks for at some point of a source. -/
inductive Expectation where
  | expression
  | className | superclassName | methodName | functionName | parameterName | variableName
  | propertyName | superclassMethodName
  | dotAfterSuper
  | leftBraceBeforeClassBody | rightBraceAfterClassBody
  | leftParenAfterFunctionName | rightParenAfterParameters | leftBraceBeforeFunctionBody
  | rightBraceAfterBlock
  | semicolonAfterVariable | semicolonAfterValue | semicolonAfterExpression
  | semicolonAfterReturnValue | semicolonAfterLoopCondition
  | leftParenAfterIf | leftParenAfterWhile | leftParenAfterFor
  | rightParenAfterCondition | rightParenAfterForClauses
  | rightParenAfterExpression | rightParenAfterArguments
  deriving DecidableEq, Repr

namespace Expectation

def phrase : Expectation → String
  | expression => "expression"
  | className => "class name"
  | superclassName => "superclass name"
  | methodName => "method name"
  | functionName => "function name"
  | parameterName => "parameter name"
  | variableName => "variable name"
  | propertyName => "property name after '.'"
  | superclassMethodName => "superclass method name"
  | dotAfterSuper => "'.' after 'super'"
  | leftBraceBeforeClassBody => "'\x7b' before class body"
  | rightBraceAfterClassBody => "'\x7d' after class body"
  | leftParenAfterFunctionName => "'(' after function name"
  | rightParenAfterParameters => "')' after parameters"
  | leftBraceBeforeFunctionBody => "'\x7b' before function body"
  | rightBraceAfterBlock => "'\x7d' after block"
  | semicolonAfterVariable => "';' after variable declaration"
  | semicolonAfterValue => "';' after value"
  | semicolonAfterExpression => "';' after expression"
  | semicolonAfterReturnValue => "';' after return value"
  | semicolonAfterLoopCondition => "';' after loop condition"
  | leftParenAfterIf => "'(' after 'if'"
  | leftParenAfterWhile => "'(' after 'while'"
  | leftParenAfterFor => "'(' after 'for'"
  | rightParenAfterCondition => "')' after condition"
  | rightParenAfterForClauses => "')' after for clauses"
  | rightParenAfterExpression => "')' after expression"
  | rightParenAfterArguments => "')' after arguments"

end Expectation

/-- What is wrong with a source. -/
inductive Diagnosis where
  | scan (reason : ScanError)
  | expected (expectation : Expectation)
  | invalidNumber
  | invalidAssignmentTarget
  /-- A local variable is read or assigned in its own initializer. -/
  | readInOwnInitializer
  | alreadyDeclared
  | inheritsFromItself
  | thisOutsideClass
  | superOutsideClass
  | superWithoutSuperclass
  | returnAtTopLevel
  | returnValueFromInitializer
  | tooManyConstants
  | tooManyLocals
  | tooManyCaptures
  | tooManyParameters
  | tooManyArguments
  | jumpTooFar
  | loopTooLarge
  deriving DecidableEq, Repr

namespace Diagnosis

def message : Diagnosis → String
  | scan reason => reason.message
  | expected expectation => s!"Expect {expectation.phrase}."
  | invalidNumber => "Invalid number literal."
  | invalidAssignmentTarget => "Invalid assignment target."
  | readInOwnInitializer => "Can't read local variable in its own initializer."
  | alreadyDeclared => "Already a variable with this name in this scope."
  | inheritsFromItself => "A class can't inherit from itself."
  | thisOutsideClass => "Can't use 'this' outside of a class."
  | superOutsideClass => "Can't use 'super' outside of a class."
  | superWithoutSuperclass => "Can't use 'super' in a class with no superclass."
  | returnAtTopLevel => "Can't return from top-level code."
  | returnValueFromInitializer => "Can't return a value from an initializer."
  | tooManyConstants => "Too many constants in one chunk."
  | tooManyLocals => "Too many local variables in function."
  | tooManyCaptures => "Too many closure variables in function."
  | tooManyParameters => "Can't have more than 255 parameters."
  | tooManyArguments => "Can't have more than 255 arguments."
  | jumpTooFar => "Too much code to jump over."
  | loopTooLarge => "Loop body too large."

end Diagnosis

/-- Where on a line an error was found. -/
inductive Location where
  | atEnd
  | atLexeme (lexeme : String)
  /-- There is no token to point at. -/
  | nowhere
  deriving DecidableEq, Repr

namespace Location

def text : Location → String
  | atEnd => " at end"
  | atLexeme lexeme => s!" at '{lexeme}'"
  | nowhere => ""

end Location

/-- An error in a source. -/
structure CompileError where
  line : Nat
  location : Location
  diagnosis : Diagnosis
  deriving DecidableEq, Repr

namespace CompileError

def message (e : CompileError) : String := e.diagnosis.message

/-- The line that reports an error. -/
def text (e : CompileError) : String :=
  s!"[line {e.line}] Error{e.location.text}: {e.message}"

/-- An error at a token. -/
def ofToken (t : Token) (diagnosis : Diagnosis) : CompileError :=
  let location := match t.kind with
    | .eof => .atEnd
    | .error _ => .nowhere
    | _ => .atLexeme t.text
  { line := t.line, location, diagnosis }

end CompileError

end LoxMachine
