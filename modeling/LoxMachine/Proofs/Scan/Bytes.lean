import Mathlib.Data.List.TakeWhile
import LoxMachine.Token.Scan

/-!
# Scanning bytes

A source is a string of bytes, and a scanner stands at an offset into them. It looks at one byte or two at a
time and takes the texts of its tokens as slices of the source, which have to start and end on character
boundaries.

* `isCharBoundary source i`, `slice? source start stop`: a slice that is not on boundaries is no text.
* `Scanner.scanToken`: one token, with the offsets `start` and `current` on both its sides. There is none if a
  slice is no text, or if the search for the next boundary leaves the source.
* `Scanner.scanned s n`: the token that is read after `n` others.
-/

namespace LoxMachine

/-! ## Slices -/

/-- Whether a character starts at an offset, or the text ends there. Within a character the bytes are
`10xxxxxx`. -/
def isCharBoundary (source : String) (i : Nat) : Bool :=
  i == 0 ||
    match source.toByteArray[i]? with
    | some b => b < 0x80 || 0xC0 ≤ b
    | none => i == source.utf8ByteSize

/-- The text between two offsets. -/
def slice? (source : String) (start stop : Nat) : Option String :=
  if start ≤ stop && isCharBoundary source start && isCharBoundary source stop then
    String.fromUTF8? (source.toByteArray.extract start stop)
  else none

/-! ## Scanners -/

/-- A scanner within a source. The token that it reads starts at the offset `start`; it has read the bytes
before `current`, which end on the line `line`. -/
structure Scanner where
  source : String
  start : Nat := 0
  current : Nat := 0
  line : Nat := 1
  deriving DecidableEq, Repr

namespace Scanner

def peek (s : Scanner) : Option UInt8 := s.source.toByteArray[s.current]?

def peekNext (s : Scanner) : Option UInt8 := s.source.toByteArray[s.current + 1]?

def isAtEnd (s : Scanner) : Bool := s.source.utf8ByteSize ≤ s.current

/-- Past one byte. -/
def forward (s : Scanner) : Scanner := { s with current := s.current + 1 }

def advance (s : Scanner) : Option (UInt8 × Scanner) := s.peek.map fun b => (b, s.forward)

/-- Whether there is a byte and it passes a test. A byte is tested as the character of the same number. -/
def passes (test : Char → Bool) (b : Option UInt8) : Bool := b.any fun b => test (.ofUInt8 b)

/-- How many bytes are left. -/
def left (s : Scanner) : Nat := s.source.utf8ByteSize - s.current

theorem left_lt_of_peek {s s' : Scanner} {b : UInt8} (hb : s.peek = some b) (hsource : s'.source = s.source)
    (hcurrent : s.current < s'.current) : s'.left < s.left := by
  obtain ⟨hlt, -⟩ := getElem?_eq_some_iff.1 hb
  have hsize : s.current < s.source.utf8ByteSize := hlt
  rw [left, left, hsource]
  omega

/-- Go on as long as the next byte passes a test. -/
def skipWhile (test : Char → Bool) (s : Scanner) : Scanner :=
  match _hb : s.peek with
  | some b => if test (.ofUInt8 b) then skipWhile test s.forward else s
  | none => s
termination_by s.left
decreasing_by exact left_lt_of_peek _hb rfl (Nat.lt_succ_self _)

theorem skipWhile_grows (test : Char → Bool) (s : Scanner) :
    (s.skipWhile test).source = s.source ∧ s.current ≤ (s.skipWhile test).current := by
  fun_induction skipWhile test s with
  | case1 s b hb htest ih => exact ⟨ih.1, (Nat.le_succ _).trans ih.2⟩
  | case2 => exact ⟨rfl, le_rfl⟩
  | case3 => exact ⟨rfl, le_rfl⟩

/-- Past a first byte that passes the test, it goes on at least that far. -/
theorem skipWhile_lt {test : Char → Bool} {s : Scanner} {b : UInt8} (hb : s.peek = some b)
    (htest : test (.ofUInt8 b) = true) : s.current < (s.skipWhile test).current := by
  unfold skipWhile
  split
  · rename_i b' hb'
    obtain rfl : b = b' := Option.some.inj (hb.symm.trans hb')
    rw [if_pos htest]
    exact (skipWhile_grows test s.forward).2
  · rename_i hnone
    cases hb.symm.trans hnone

/-- Pass over blanks and comments, counting lines. -/
def skipWhitespace (s : Scanner) : Scanner :=
  match _hb : s.peek with
  | none => s
  | some b =>
    if isBlank (.ofUInt8 b) then skipWhitespace s.forward
    else if Char.ofUInt8 b == '\n' then skipWhitespace { s.forward with line := s.line + 1 }
    else if _hslash : Char.ofUInt8 b == '/' && passes (· == '/') s.peekNext then
      skipWhitespace (s.skipWhile (· != '\n'))
    else s
termination_by s.left
decreasing_by
  · exact left_lt_of_peek _hb rfl (Nat.lt_succ_self _)
  · exact left_lt_of_peek _hb rfl (Nat.lt_succ_self _)
  · refine left_lt_of_peek _hb (skipWhile_grows _ s).1 (skipWhile_lt _hb ?_)
    rw [Bool.and_eq_true, beq_iff_eq] at _hslash
    rw [_hslash.1]
    rfl

/-! ## Tokens -/

/-- The token whose text has been read. -/
def makeToken (kind : TokenKind) (s : Scanner) : Option (Token × Scanner) :=
  (slice? s.source s.start s.current).map fun lexeme => (⟨kind, lexeme, s.line⟩, s)

/-- A piece that is no token has the message for its lexeme. -/
def errorToken (reason : ScanError) (s : Scanner) : Option (Token × Scanner) :=
  some (⟨.error reason, reason.message, s.line⟩, s)

/-- An operator that is one byte longer if `=` follows. -/
def either (long short : TokenKind) (s : Scanner) : Option (Token × Scanner) :=
  if passes (· == '=') s.peek then s.forward.makeToken long else s.makeToken short

/-- Words go on up to a byte that is no part of one. -/
def identifier (s : Scanner) : Option (Token × Scanner) := do
  let s := s.skipWhile isWordPart
  s.makeToken (.ofWord (← slice? s.source s.start s.current))

/-- Numbers go on with digits, and then with a point and more digits if a digit follows the point. -/
def number (s : Scanner) : Option (Token × Scanner) :=
  let s := s.skipWhile Char.isDigit
  if passes (· == '.') s.peek && passes Char.isDigit s.peekNext then
    (s.forward.skipWhile Char.isDigit).makeToken .number
  else s.makeToken .number

/-- Go on to the next quote, counting lines. -/
def toQuote (s : Scanner) : Scanner :=
  match _hb : s.peek with
  | none => s
  | some b =>
    if Char.ofUInt8 b == '"' then s
    else toQuote { s.forward with line := if Char.ofUInt8 b == '\n' then s.line + 1 else s.line }
termination_by s.left
decreasing_by exact left_lt_of_peek _hb rfl (Nat.lt_succ_self _)

/-- A string goes on past the next quote; without one, the rest of the source is no token. -/
def string (s : Scanner) : Option (Token × Scanner) :=
  let s := s.toQuote
  if s.isAtEnd then s.errorToken .unterminatedString else s.forward.makeToken .string

/-- Go on to the next boundary. Past the end of the source there is none. -/
def toBoundary (s : Scanner) : Option Scanner :=
  if isCharBoundary s.source s.current then some s
  else if s.current < s.source.utf8ByteSize then toBoundary s.forward else none
termination_by s.left
decreasing_by
  rw [left, left]
  exact Nat.sub_lt_sub_left (by assumption) (Nat.lt_succ_self _)

/-- The rest of a token whose first byte has been read. -/
def token (c : Char) (s : Scanner) : Option (Token × Scanner) :=
  if isWordStart c then s.identifier
  else if c.isDigit then s.number
  else
    match c with
    | '(' => s.makeToken .leftParen
    | ')' => s.makeToken .rightParen
    | '{' => s.makeToken .leftBrace
    | '}' => s.makeToken .rightBrace
    | ';' => s.makeToken .semicolon
    | ',' => s.makeToken .comma
    | '.' => s.makeToken .dot
    | '-' => s.makeToken .minus
    | '+' => s.makeToken .plus
    | '/' => s.makeToken .slash
    | '*' => s.makeToken .star
    | '!' => s.either .bangEqual .bang
    | '=' => s.either .equalEqual .equal
    | '<' => s.either .lessEqual .less
    | '>' => s.either .greaterEqual .greater
    | '"' => s.string
    | _ => do (← s.toBoundary).errorToken .unexpectedCharacter

/-- Read the next token. -/
def scanToken (s : Scanner) : Option (Token × Scanner) :=
  let s := s.skipWhitespace
  let s := { s with start := s.current }
  match s.advance with
  | none => s.makeToken .eof
  | some (b, s) => s.token (.ofUInt8 b)

/-- The token that is read after `n` others, and the scanner that has read it. -/
def scanned (s : Scanner) : (n : Nat) → Option (Token × Scanner)
  | 0 => s.scanToken
  | n + 1 => do (← s.scanToken).2.scanned n

end Scanner

end LoxMachine
