import LoxMachine.Opcode
import LoxMachine.Put
import LoxMachine.Value

/-!
# Chunks

A chunk is the code of one function: its bytes, the source line of every byte, and the pool of
constants that the code refers to by index.

* `Chunk.write`, `addConstant` and `patch` build a chunk.
* `Chunk.read8`, `read16` and `opcodeAt` read it back, failing with a `DecodeError`.
* `lines_size` is part of the type: there is one line for every byte.
-/

namespace LoxMachine

/-- Why bytes cannot be read as an instruction. -/
inductive DecodeError where
  /-- The byte encodes no operation. -/
  | unknownOpcode (byte : UInt8)
  /-- The code ends before this offset. -/
  | truncated (offset : Nat)
  /-- The operand names no constant, or one of the wrong kind. -/
  | badConstant (index : UInt8)
  deriving DecidableEq, Repr

namespace DecodeError

def message : DecodeError → String
  | unknownOpcode byte => s!"unknown opcode {byte}"
  | truncated offset => s!"truncated instruction at offset {offset}"
  | badConstant index => s!"bad constant operand {index}"

end DecodeError

/-- The code of one function. -/
structure Chunk where
  code : Array UInt8 := #[]
  /-- The source line of each byte of `code`. -/
  lines : Array Nat := #[]
  constants : Array Value := #[]
  lines_size : lines.size = code.size := by rfl

namespace Chunk

/-- A chunk without code. -/
def empty : Chunk := {}

instance : Inhabited Chunk := ⟨empty⟩

/-- How many bytes of code there are. -/
def size (c : Chunk) : Nat := c.code.size

/-! ## Building -/

/-- Append one byte that belongs to `line`. -/
def write (c : Chunk) (byte : UInt8) (line : Nat) : Chunk :=
  { code := c.code.push byte
    lines := c.lines.push line
    constants := c.constants
    lines_size := by simp [c.lines_size] }

/-- Append a constant; its index is the number of constants before. -/
def addConstant (c : Chunk) (v : Value) : Chunk :=
  { c with constants := c.constants.push v }

/-- Overwrite the two bytes at `offset` by `distance`, the high byte first. -/
def patch (c : Chunk) (offset distance : Nat) : Chunk :=
  { code := put (put c.code offset (UInt8.ofNat (distance / 256))) (offset + 1)
      (UInt8.ofNat distance)
    lines := c.lines
    constants := c.constants
    lines_size := by simp [c.lines_size] }

@[simp] theorem size_write (c : Chunk) (byte : UInt8) (line : Nat) :
    (c.write byte line).size = c.size + 1 := by
  simp [write, size]

@[simp] theorem size_patch (c : Chunk) (offset distance : Nat) :
    (c.patch offset distance).size = c.size := by
  simp [patch, size]

/-! ## Reading -/

/-- The byte at `offset`. -/
@[inline] def read8 (c : Chunk) (offset : Nat) : Except DecodeError UInt8 :=
  match c.code[offset]? with
  | some byte => .ok byte
  | none => .error (.truncated offset)

/-- The two bytes at `offset` as one distance, the high byte first. -/
def read16 (c : Chunk) (offset : Nat) : Except DecodeError Nat := do
  let high ← c.read8 offset
  let low ← c.read8 (offset + 1)
  return high.toNat * 256 + low.toNat

/-- The operation at `offset`. -/
def opcodeAt (c : Chunk) (offset : Nat) : Except DecodeError Opcode := do
  let byte ← c.read8 offset
  match Opcode.ofByte? byte with
  | some op => return op
  | none => throw (.unknownOpcode byte)

/-- The source line of the byte at `offset`, or `0` past the end. -/
def lineAt (c : Chunk) (offset : Nat) : Nat := c.lines[offset]?.getD 0

/-! ## Storage -/

/-- The room that `n` items pushed one at a time take: none at first, then `first` places, and
twice as many whenever they are full. -/
def room (first n : Nat) : Nat :=
  if n = 0 then 0 else max first n.nextPowerOfTwo

/-- The bytes charged for a chunk: one for a byte of code, four for a line and sixteen for a
constant. -/
def storage (c : Chunk) : Nat :=
  room 8 c.code.size + 4 * room 4 c.lines.size + 16 * room 4 c.constants.size

end Chunk

end LoxMachine
