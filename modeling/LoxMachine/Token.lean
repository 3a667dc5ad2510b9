/-!
# Tokens

* `TokenKind` classifies the pieces of a source text; a piece that is no token of the language has
  the kind `error`.
* `Token` is a piece of the source with its kind and line.
* `TokenKind.ofWord` tells the keywords from the identifiers.
* `TokenKind.lexeme` is the text that a token has.
-/

namespace LoxMachine

/-- Why a piece of source is no token. -/
inductive ScanError where
  | unexpectedCharacter
  | unterminatedString
  deriving DecidableEq, Repr

namespace ScanError

def message : ScanError → String
  | unexpectedCharacter => "Unexpected character."
  | unterminatedString => "Unterminated string."

end ScanError

/-- The kinds of tokens. -/
inductive TokenKind where
  | leftParen | rightParen | leftBrace | rightBrace
  | comma | dot | minus | plus | semicolon | slash | star
  | bang | bangEqual | equal | equalEqual | greater | greaterEqual | less | lessEqual
  | identifier | string | number
  | kwAnd | kwClass | kwElse | kwFalse | kwFor | kwFun | kwIf | kwNil | kwOr | kwPrint
  | kwReturn | kwSuper | kwThis | kwTrue | kwVar | kwWhile
  | error (reason : ScanError)
  | eof
  deriving DecidableEq, Repr

/-- A piece of the source text. The line is the one its last character stands on, as a natural number: a
counter of 32 bits agrees with it up to `2 ^ 32 - 1`. -/
structure Token where
  kind : TokenKind
  text : String
  line : Nat
  deriving DecidableEq, Repr

namespace TokenKind

/-- The kind of a word: a keyword or an identifier. -/
def ofWord : String → TokenKind
  | "and" => .kwAnd
  | "class" => .kwClass
  | "else" => .kwElse
  | "false" => .kwFalse
  | "for" => .kwFor
  | "fun" => .kwFun
  | "if" => .kwIf
  | "nil" => .kwNil
  | "or" => .kwOr
  | "print" => .kwPrint
  | "return" => .kwReturn
  | "super" => .kwSuper
  | "this" => .kwThis
  | "true" => .kwTrue
  | "var" => .kwVar
  | "while" => .kwWhile
  | _ => .identifier

/-- The text of a token is its piece of the source. A piece that is no token has the message instead. -/
def lexeme (kind : TokenKind) (piece : String) : String :=
  match kind with
  | error reason => reason.message
  | _ => piece

end TokenKind

end LoxMachine
