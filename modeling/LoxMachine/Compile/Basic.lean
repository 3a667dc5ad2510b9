import LoxMachine.Draft
import LoxMachine.Heap.Allocation
import LoxMachine.Listing
import LoxMachine.Token.Scan

/-!
# The state of a compilation

A source is compiled in one pass: each token is read once, and code is written into the draft of the
innermost function at the same time. Strings and finished functions are allocated on the way, so the
heap is part of the state.

* `Compiler` is the state and `Compile` the actions on it.
* `advance`, `check`, `accept` and `consume` read tokens.
* `errorAt` reports an error. After an error the compiler is in panic and reports nothing until
  `synchronize` has found the next statement.
* `emit`, `emitJump`, `patchJump` and `emitLoop` write code.
* `beginFunction` and `endFunction` open and close drafts.
-/

namespace LoxMachine

/-- A class declaration being compiled. -/
structure ClassScope where
  hasSuperclass : Bool := false
  deriving DecidableEq, Repr

/-- The state of a compilation. -/
structure Compiler where
  /-- The tokens after the current one. The last one is `eof`, and stays. -/
  rest : List Token
  current : Token
  previous : Token
  panicking : Bool := false
  errors : Array CompileError := #[]
  heap : Heap
  /-- What the caller needs kept alive. -/
  roots : Thunk (List Handle)
  draft : Draft := .start .script none
  /-- The drafts of the enclosing functions, the innermost first. -/
  enclosing : List Draft := []
  /-- The classes around the current point, the innermost first. -/
  classes : List ClassScope := []

/-- An action of the compiler. -/
abbrev Compile := StateM Compiler

namespace Compiler

/-! ## Errors -/

/-- Report an error at a token, unless an error is being recovered from. -/
def errorAt (c : Compiler) (t : Token) (d : Diagnosis) : Compiler :=
  if c.panicking then c
  else { c with panicking := true, errors := c.errors.push (.ofToken t d) }

/-! ## Tokens -/

/-- Make the next token of a list the current one, reporting the pieces that are no tokens. -/
def pull : List Token → Compiler → Compiler
  | [], c => { c with rest := [] }
  | t :: ts, c =>
    match t.kind with
    | .error reason => pull ts (c.errorAt t (.scan reason))
    | .eof => { c with current := t, rest := [t] }
    | _ => { c with current := t, rest := ts }

/-- The handles that the compiler keeps alive: the caller's, and those of every draft, the outermost
first. -/
def handles (roots : Thunk (List Handle)) (draft : Draft) (enclosing : List Draft) : List Handle :=
  roots.get ++ (draft :: enclosing).reverse.flatMap Draft.handles

/-- The state before the first token. -/
def start (source : String) (heap : Heap) (roots : Thunk (List Handle)) : Compiler :=
  let none : Token := ⟨.eof, "", 1⟩
  { rest := (Source.ofString source).tokens, current := none, previous := none, heap, roots }

end Compiler

namespace Compile

/-- Run an action as long as a condition holds, at most the given number of times. -/
def loop (condition : Compile Bool) (body : Compile Unit) : Nat → Compile Unit
  | 0 => return
  | n + 1 => do
    if ← condition then
      body
      loop condition body n

/-! ## Errors -/

/-- Report an error at the token read last. -/
def error (d : Diagnosis) : Compile Unit :=
  modify fun c => c.errorAt c.previous d

/-- Report an error at the current token. -/
def errorAtCurrent (d : Diagnosis) : Compile Unit :=
  modify fun c => c.errorAt c.current d

/-! ## Tokens -/

/-- Go on to the next token. -/
def advance : Compile Unit :=
  modify fun c => { c with previous := c.current }.pull c.rest

/-- Whether the current token is of the given kind. -/
def check (kind : TokenKind) : Compile Bool := return (← get).current.kind = kind

/-- Go on if the current token is of the given kind. -/
def accept (kind : TokenKind) : Compile Bool := do
  if ← check kind then
    advance
    return true
  return false

/-- Go on if the current token is of the given kind; else report what is expected. -/
def consume (kind : TokenKind) (e : Expectation) : Compile Unit := do
  if ← check kind then advance else errorAtCurrent (.expected e)

/-- The text of the token read last. -/
def lexeme : Compile String := return (← get).previous.text

/-- Whether a statement or declaration starts with the kind of token. -/
def startsStatement : TokenKind → Bool
  | .kwClass | .kwFun | .kwVar | .kwFor | .kwIf | .kwWhile | .kwPrint | .kwReturn => true
  | _ => false

/-- Leave panic, and skip tokens up to what looks like the start of a statement. -/
def synchronize (fuel : Nat) : Compile Unit := do
  modify fun c => { c with panicking := false }
  let inside : Compile Bool := do
    let c ← get
    return c.current.kind != .eof && c.previous.kind != .semicolon
      && !startsStatement c.current.kind
  loop inside advance fuel

/-! ## Heap -/

/-- The string object with given contents. -/
def intern (s : String) : Compile Handle :=
  modifyGet fun
    ⟨rest, current, previous, panicking, errors, heap, roots, draft, enclosing, classes⟩ =>
    let (h, heap) := heap.intern (Compiler.handles roots draft enclosing) s
    (h, ⟨rest, current, previous, panicking, errors, heap, roots, draft, enclosing, classes⟩)

/-- A new object. -/
def alloc (o : Object) : Compile Handle :=
  modifyGet fun
    ⟨rest, current, previous, panicking, errors, heap, roots, draft, enclosing, classes⟩ =>
    let (h, heap) := heap.alloc (Compiler.handles roots draft enclosing) o
    (h, ⟨rest, current, previous, panicking, errors, heap, roots, draft, enclosing, classes⟩)

/-! ## Code -/

/-- Change the draft of the innermost function. -/
def modifyDraft (f : Draft → Draft) : Compile Unit :=
  modify fun c => { c with draft := f c.draft }

/-- Change the chunk of the innermost function. -/
def modifyChunk (f : Chunk → Chunk) : Compile Unit :=
  modifyDraft fun d => { d with chunk := f d.chunk }

/-- How much code the innermost function has. -/
def codeSize : Compile Nat := return (← get).draft.chunk.size

/-- Write a byte that belongs to the line of the token read last. -/
def emitByte (byte : UInt8) : Compile Unit := do
  let line := (← get).previous.line
  modifyChunk (·.write byte line)

/-- Write an operation. -/
def emit (op : Opcode) : Compile Unit := emitByte op.toByte

/-- Write an operation with a byte operand. -/
def emitWith (op : Opcode) (byte : UInt8) : Compile Unit := do
  emit op
  emitByte byte

/-- The longest distance of a jump. -/
def maxJump : Nat := 65535

/-- Write a jump whose distance is not known yet, and answer where the distance goes. -/
def emitJump (op : Opcode) : Compile Nat := do
  emit op
  emitByte 0xff
  emitByte 0xff
  return (← codeSize) - 2

/-- Let the jump whose distance is at `offset` go to the end of the code. -/
def patchJump (offset : Nat) : Compile Unit := do
  let distance := (← codeSize) - offset - 2
  if maxJump < distance then error .jumpTooFar
  modifyChunk (·.patch offset (min distance maxJump))

/-- Write a jump back to `start`. -/
def emitLoop (start : Nat) : Compile Unit := do
  emit .loop
  let distance := (← codeSize) - start + 2
  if maxJump < distance then error .loopTooLarge
  let distance := min distance maxJump
  emitByte (UInt8.ofNat (distance / 256))
  emitByte (UInt8.ofNat distance)

/-- Add a constant and answer its index. -/
def makeConstant (v : Value) : Compile UInt8 := do
  let index := (← get).draft.chunk.constants.size
  modifyChunk (·.addConstant v)
  if byteCount ≤ index then
    error .tooManyConstants
    return 0
  return UInt8.ofNat index

/-- Write an instruction that pushes a constant. -/
def emitConstant (v : Value) : Compile Unit := do
  emitWith .constant (← makeConstant v)

/-- Add a name as a constant and answer its index. -/
def nameConstant (name : String) : Compile UInt8 := do
  makeConstant (.obj (← intern name))

/-- Write a return without a value: an initializer returns its receiver and any other function
`nil`. -/
def emitReturn : Compile Unit := do
  if (← get).draft.kind = .initializer then emitWith .getLocal 0 else emit .pushNil
  emit .ret

/-! ## Functions -/

/-- Start a function named by the token read last. -/
def beginFunction (kind : FunctionKind) : Compile Unit := do
  let name ← intern (← lexeme)
  modify fun c =>
    { c with draft := .start kind (some name), enclosing := c.draft :: c.enclosing }

/-- Report the code of a finished function, as long as no error has been found. -/
def reportListing (d : Draft) : Compile Unit :=
  modify fun c =>
    if c.errors.isEmpty && c.heap.journal.admits .debug then
      let listing := do Listing.chunk c.heap d.chunk (← Listing.title c.heap d.function)
      match listing with
      | .ok text => { c with heap := c.heap.record (.compiled text) }
      | .error _ => c
    else c

/-- Finish the innermost function, and go on with the one around it. -/
def endFunction : Compile Draft := do
  emitReturn
  let finished := (← get).draft
  modify fun c =>
    match c.enclosing with
    | [] => { c with draft := .start .script none }
    | d :: enclosing => { c with draft := d, enclosing }
  reportListing finished
  return finished

end Compile

end LoxMachine
