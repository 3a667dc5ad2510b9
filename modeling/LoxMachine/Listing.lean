import LoxMachine.Heap

/-!
# Listings

A readable form of compiled code, one line for each instruction: its offset, its source line, its
mnemonic and its operands. The line column is a bar while the source line stays the same. A closure
instruction has one more line for each variable it captures.

* `Listing.instruction` is the text of the instruction at an offset, with the offset of the next
  one.
* `Listing.loop` takes turns for as long as there are any.
* `Listing.chunk` lists a chunk from its start, under a heading.
* `Listing.program` lists a function and all functions nested in it, by a worklist.

Displaying a constant may meet a freed object, so listings can end in a `Fault`.
-/

namespace LoxMachine

namespace Listing

/-! ## Loops -/

variable {σ : Type}

/-- A turn of a loop leads from the state `s` to the state `s'`. -/
def Leads (turn : σ → Except Fault (Option σ)) (s' s : σ) : Prop := turn s = .ok (some s')

/-- Take turns until one gives no new state. Such a loop may have no end. -/
def loop (turn : σ → Except Fault (Option σ)) (s : σ) : Except Fault σ :=
  have : Nonempty (Except Fault σ) := ⟨.ok s⟩
  WellFounded.partialExtrinsicFix (C := fun _ => Except Fault σ) (Leads turn) (fun s again =>
    match h : turn s with
    | .error fault => .error fault
    | .ok none => .ok s
    | .ok (some s') => again s' h) s

/-! ## Columns -/

/-- A text with blanks before it, up to a width. -/
def alignRight (width : Nat) (s : String) : String :=
  String.ofList (List.replicate (width - s.length) ' ') ++ s

/-- A text with blanks after it, up to a width. -/
def alignLeft (width : Nat) (s : String) : String :=
  s ++ String.ofList (List.replicate (width - s.length) ' ')

/-- An offset, in at least four digits. -/
def offsetColumn (offset : Nat) : String := String.ofList (Number.padded 4 offset)

/-- The source line of the byte at `offset`, or a bar if the byte before has the same one. -/
def lineColumn (chunk : Chunk) (offset : Nat) : String :=
  if 0 < offset && chunk.lineAt offset == chunk.lineAt (offset - 1) then "   | "
  else alignRight 4 (toString (chunk.lineAt offset)) ++ " "

/-- The mnemonic of an operation that has operands, with the blank that follows it. -/
def mnemonicColumn (op : Opcode) : String := alignLeft 16 op.mnemonic ++ " "

/-- A byte operand. -/
def byteColumn (byte : UInt8) : String := alignRight 4 (toString byte)

/-! ## Operands -/

/-- The text of the constant with an index. -/
def constantText (heap : Heap) (chunk : Chunk) (index : UInt8) : Except Fault String :=
  match chunk.constants[index.toNat]? with
  | some value => heap.display value
  | none => return "<bad constant>"

/-- How many variables the function constant with an index captures. -/
def captureCount (heap : Heap) (chunk : Chunk) (index : UInt8) : Except Fault Nat :=
  match chunk.constants[index.toNat]? with
  | some (.obj h) => do
    match ← heap.object h with
    | .function f => return f.upvalueCount
    | _ => return 0
  | _ => return 0

/-- What a captured variable is, by the first of its two bytes: a local variable of the enclosing
function, or one that this function has captured itself. -/
def originText (origin : UInt8) : String := if origin = 1 then "local" else "upvalue"

/-- The lines of `count` captured variables whose bytes start at `offset`, and the offset after
them. -/
def captureLines (chunk : Chunk) : (count offset : Nat) → Except DecodeError (String × Nat)
  | 0, offset => return ("", offset)
  | count + 1, offset => do
    let origin ← chunk.read8 offset
    let index ← chunk.read8 (offset + 1)
    let line := "\n" ++ offsetColumn offset ++
      s!"      |                     {originText origin} {index}"
    let (more, next) ← captureLines chunk count (offset + 2)
    return (line ++ more, next)

/-- The target of a jump: `distance` past the instruction of three bytes at `offset`, or before its
end. -/
def jumpLine (op : Opcode) (offset : Nat) (target : Int) : String :=
  mnemonicColumn op ++ alignRight 4 (toString offset) ++ s!" -> {target}"

/-- The operation at `offset` with its operands, and the offset of the next instruction. -/
def operation (heap : Heap) (chunk : Chunk) (op : Opcode) (offset : Nat) :
    ExceptT DecodeError (Except Fault) (String × Nat) := do
  match op.operands with
  | .none => return (op.mnemonic, offset + 1)
  | .byte =>
    let byte ← chunk.read8 (offset + 1)
    return (mnemonicColumn op ++ byteColumn byte, offset + 2)
  | .constant =>
    let index ← chunk.read8 (offset + 1)
    let text ← constantText heap chunk index
    return (mnemonicColumn op ++ byteColumn index ++ s!" '{text}'", offset + 2)
  | .forward =>
    let distance ← chunk.read16 (offset + 1)
    return (jumpLine op offset (offset + 3 + distance), offset + 3)
  | .backward =>
    let distance ← chunk.read16 (offset + 1)
    return (jumpLine op offset (offset + 3 - distance), offset + 3)
  | .invocation =>
    let index ← chunk.read8 (offset + 1)
    let count ← chunk.read8 (offset + 2)
    let text ← constantText heap chunk index
    return (mnemonicColumn op ++ s!"({count} args) " ++ byteColumn index ++ s!" '{text}'",
      offset + 3)
  | .captures =>
    let index ← chunk.read8 (offset + 1)
    let text ← constantText heap chunk index
    let count ← captureCount heap chunk index
    let (lines, next) ← captureLines chunk count (offset + 2)
    return (mnemonicColumn op ++ byteColumn index ++ " " ++ text ++ lines, next)

/-! ## Instructions and chunks -/

/-- The instruction at `offset` and the offset of the next one. Bytes that are no instruction are
shown as what is wrong with them. -/
def instruction (heap : Heap) (chunk : Chunk) (offset : Nat) : Except Fault (String × Nat) := do
  let columns := offsetColumn offset ++ " " ++ lineColumn chunk offset
  match chunk.opcodeAt offset with
  | .error (.unknownOpcode byte) => return (columns ++ s!"Unknown opcode {byte}", offset + 1)
  | .error e => return (columns ++ "<" ++ e.message ++ ">", chunk.size)
  | .ok op =>
    match ← (operation heap chunk op offset).run with
    | .ok (text, next) => return (columns ++ text, next)
    | .error e => return (columns ++ op.mnemonic ++ " <" ++ e.message ++ ">", chunk.size)

/-- List the instruction at an offset on a line of its own, and go on to the next one. Past the end
of the code there is nothing to list. The lines so far are kept apart, the last one first, so that a
turn copies none of them. -/
def line (heap : Heap) (chunk : Chunk) :
    List String × Nat → Except Fault (Option (List String × Nat))
  | (out, offset) =>
    if offset < chunk.size then do
      let (text, next) ← instruction heap chunk offset
      return some ((text ++ "\n") :: out, next)
    else return none

/-- A whole chunk under a heading. -/
def chunk (heap : Heap) (c : Chunk) (title : String) : Except Fault String :=
  return String.join (← loop (line heap c) ([s!"== {title} ==\n"], 0)).1.reverse

/-- The heading of a function's listing. -/
def title (heap : Heap) (f : Function) : Except Fault String :=
  match f.name with
  | some name => heap.contents name
  | none => return "<script>"

/-- A function under its name. -/
def function (heap : Heap) (h : Handle) : Except Fault String := do
  let f ← heap.function h
  chunk heap f.chunk (← title heap f)

/-! ## Programs -/

/-- Put the functions among the constants on a worklist, the last constant first, so that they stand
there in their order. -/
def pushFunctions (heap : Heap) (constants : List Value) (pending : List Handle) :
    Except Fault (List Handle) :=
  constants.foldrM (fun v pending => return (← heap.asKind .function v).toList ++ pending) pending

/-- List the function on top of a worklist. The functions among its constants come before those that
wait already. -/
def visit (heap : Heap) : String × List Handle → Except Fault (Option (String × List Handle))
  | (_, []) => return none
  | (out, h :: pending) => do
    let text ← function heap h
    let pending ← pushFunctions heap (← heap.function h).chunk.constants.toList pending
    return some (out ++ text, pending)

/-- A function and all functions nested in it, each before the ones nested in it. There is no end to
the listing of a function that contains itself. -/
def program (heap : Heap) (h : Handle) : Except Fault String :=
  return (← loop (visit heap) ("", [h])).1

end Listing

end LoxMachine
