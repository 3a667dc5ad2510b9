import LoxMachine.Token

/-!
# Scanning

A source text is cut into tokens one at a time. Between tokens stand blanks and comments, a comment
running from `//` to the end of its line.

* `Source.skip` passes over blanks and comments, counting lines.
* `Token.extent` is the kind of the token at the front of a text and the number of characters it
  has after its first one. A word, a number or an operator is as long as possible.
* `Source.next` takes one token off; at the end of the text it is `eof`, again and again.
* `Source.tokens` is the whole text as tokens, ending with `eof`.
-/

namespace LoxMachine

/-! ## Character classes -/

/-- Whether a word can start with the character. -/
def isWordStart (c : Char) : Bool := c.isAlpha || c == '_'

/-- Whether a word can go on with the character. -/
def isWordPart (c : Char) : Bool := isWordStart c || c.isDigit

/-- Blanks other than the line feed. -/
def isBlank (c : Char) : Bool := c == ' ' || c == '\r' || c == '\t'

/-! ## The extent of a token -/

namespace Token

/-- An operator that is one character longer if `=` follows. -/
def withEqual (rest : List Char) (long short : TokenKind) : TokenKind × Nat :=
  match rest with
  | '=' :: _ => (long, 1)
  | _ => (short, 0)

/-- How far a number goes on: digits, then a point and more digits if a digit follows the point. -/
def numberTail (rest : List Char) : Nat :=
  let whole := (rest.takeWhile Char.isDigit).length
  match rest.dropWhile Char.isDigit with
  | '.' :: c :: more =>
    if c.isDigit then whole + 2 + (more.takeWhile Char.isDigit).length else whole
  | _ => whole

/-- A string goes on to the next quote; without one, the rest of the text is no token. -/
def stringTail (rest : List Char) : TokenKind × Nat :=
  let inside := (rest.takeWhile (· != '"')).length
  match rest.dropWhile (· != '"') with
  | [] => (.error .unterminatedString, inside)
  | _ => (.string, inside + 1)

/-- The kind of the token that starts with `c` and goes on into `rest`, and how many characters of
`rest` it takes. -/
def extent (c : Char) (rest : List Char) : TokenKind × Nat :=
  if isWordStart c then
    let tail := rest.takeWhile isWordPart
    (.ofWord (String.ofList (c :: tail)), tail.length)
  else if c.isDigit then (.number, numberTail rest)
  else
    match c with
    | '(' => (.leftParen, 0)
    | ')' => (.rightParen, 0)
    | '{' => (.leftBrace, 0)
    | '}' => (.rightBrace, 0)
    | ';' => (.semicolon, 0)
    | ',' => (.comma, 0)
    | '.' => (.dot, 0)
    | '-' => (.minus, 0)
    | '+' => (.plus, 0)
    | '/' => (.slash, 0)
    | '*' => (.star, 0)
    | '!' => withEqual rest .bangEqual .bang
    | '=' => withEqual rest .equalEqual .equal
    | '<' => withEqual rest .lessEqual .less
    | '>' => withEqual rest .greaterEqual .greater
    | '"' => stringTail rest
    | _ => (.error .unexpectedCharacter, 0)

end Token

/-! ## Source texts -/

/-- What is left of a source text, and the line it starts on. -/
structure Source where
  rest : List Char
  line : Nat := 1
  deriving DecidableEq, Repr

namespace Source

def ofString (s : String) : Source := { rest := s.toList }

/-- Pass over blanks and comments. `inComment` says whether the text starts inside a comment. -/
def skip (inComment : Bool) (line : Nat) : List Char → Source
  | [] => ⟨[], line⟩
  | '\n' :: cs => skip false (line + 1) cs
  | c :: cs =>
    if inComment then skip true line cs
    else if isBlank c then skip false line cs
    else if c == '/' && cs.head? == some '/' then skip true line cs
    else ⟨c :: cs, line⟩

/-- Take the next token off. -/
def next (s : Source) : Token × Source :=
  match skip false s.line s.rest with
  | ⟨[], line⟩ => (⟨.eof, "", line⟩, ⟨[], line⟩)
  | ⟨c :: rest, start⟩ =>
    let (kind, size) := Token.extent c rest
    let taken := c :: rest.take size
    let line := start + taken.count '\n'
    (⟨kind, kind.lexeme (String.ofList taken), line⟩, ⟨rest.drop size, line⟩)

/-- Prepend, in reverse, up to `n` tokens and stop after `eof`. -/
def tokensOnto : (n : Nat) → List Token → Source → List Token
  | 0, taken, _ => taken
  | n + 1, taken, s =>
    let (token, rest) := s.next
    if token.kind = .eof then token :: taken else tokensOnto n (token :: taken) rest

/-- The tokens of a source text, ending with `eof`. Every other token has a character, so there are
at most as many as characters. -/
def tokens (s : Source) : List Token := (tokensOnto (s.rest.length + 1) [] s).reverse

end Source

end LoxMachine
