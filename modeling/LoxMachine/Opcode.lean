/-!
# Opcodes

An instruction is one opcode byte followed by its operand bytes.

* `Opcode.toByte` and `Opcode.ofByte?` are the encoding; `ofByte?_eq_some_iff` says that decoding
  undoes it and accepts nothing else.
* `Opcode.mnemonic` is the name used in listings.
* `Opcode.operands` says what follows the opcode byte.
-/

namespace LoxMachine

/-- The operations of the machine. -/
inductive Opcode where
  | constant | pushNil | pushTrue | pushFalse | pop
  | getLocal | setLocal | getGlobal | defineGlobal | setGlobal | getUpvalue | setUpvalue
  | getProperty | setProperty | getSuper
  | equal | greater | less
  | add | subtract | multiply | divide | not | negate
  | print | jump | jumpIfFalse | loop
  | call | invoke | superInvoke | closure | closeUpvalue | ret
  | cls | inherit | method
  deriving DecidableEq, Inhabited, Repr

/-- What the bytes after an opcode are. -/
inductive Operands where
  /-- Nothing follows. -/
  | none
  /-- A stack slot, an upvalue index or an argument count. -/
  | byte
  /-- An index into the constant pool. -/
  | constant
  /-- A forward distance in two bytes, the high one first. -/
  | forward
  /-- A backward distance in two bytes, the high one first. -/
  | backward
  /-- A constant index and an argument count. -/
  | invocation
  /-- The index of a function constant, then two bytes for each variable it captures. -/
  | captures
  deriving DecidableEq, Repr

namespace Opcode

/-- The byte that encodes an operation. -/
def toByte : Opcode → UInt8
  | constant => 0x00 | pushNil => 0x01 | pushTrue => 0x02 | pushFalse => 0x03 | pop => 0x04
  | getLocal => 0x05 | setLocal => 0x06 | getGlobal => 0x07 | defineGlobal => 0x08
  | setGlobal => 0x09 | getUpvalue => 0x0a | setUpvalue => 0x0b
  | getProperty => 0x0c | setProperty => 0x0d | getSuper => 0x0e
  | equal => 0x0f | greater => 0x10 | less => 0x11
  | add => 0x12 | subtract => 0x13 | multiply => 0x14 | divide => 0x15
  | not => 0x16 | negate => 0x17
  | print => 0x18 | jump => 0x19 | jumpIfFalse => 0x1a | loop => 0x1b
  | call => 0x1c | invoke => 0x1d | superInvoke => 0x1e | closure => 0x1f
  | closeUpvalue => 0x20 | ret => 0x21
  | cls => 0x22 | inherit => 0x23 | method => 0x24

/-- The operations, in the order of their bytes. -/
def all : Array Opcode := #[
  constant, pushNil, pushTrue, pushFalse, pop,
  getLocal, setLocal, getGlobal, defineGlobal, setGlobal, getUpvalue, setUpvalue,
  getProperty, setProperty, getSuper,
  equal, greater, less,
  add, subtract, multiply, divide, not, negate,
  print, jump, jumpIfFalse, loop,
  call, invoke, superInvoke, closure, closeUpvalue, ret,
  cls, inherit, method]

/-- The operation that a byte encodes, if it encodes one. -/
def ofByte? (byte : UInt8) : Option Opcode := all[byte.toNat]?

/-- Decoding undoes encoding. -/
@[simp] theorem ofByte?_toByte (op : Opcode) : ofByte? op.toByte = some op := by
  cases op <;> rfl

/-- A byte encodes at most one operation. -/
theorem ofByte?_eq_some_iff {byte : UInt8} {op : Opcode} :
    ofByte? byte = some op ↔ op.toByte = byte := by
  constructor
  · intro h
    have hop : all[byte.toNat]? = some op := h
    have hlt : byte.toNat < 37 := (Array.getElem?_eq_some_iff.1 hop).1
    have hall : ∀ n : Fin 37, all[n.val]?.map toByte = some (UInt8.ofNat n) := by decide
    have hbyte := hall ⟨byte.toNat, hlt⟩
    simp only [hop, Option.map_some, UInt8.ofNat_toNat, Option.some.injEq] at hbyte
    exact hbyte
  · rintro rfl
    exact ofByte?_toByte op

/-- The name of an operation in a listing. -/
def mnemonic : Opcode → String
  | constant => "OP_CONSTANT" | pushNil => "OP_NIL" | pushTrue => "OP_TRUE"
  | pushFalse => "OP_FALSE" | pop => "OP_POP"
  | getLocal => "OP_GET_LOCAL" | setLocal => "OP_SET_LOCAL"
  | getGlobal => "OP_GET_GLOBAL" | defineGlobal => "OP_DEFINE_GLOBAL"
  | setGlobal => "OP_SET_GLOBAL"
  | getUpvalue => "OP_GET_UPVALUE" | setUpvalue => "OP_SET_UPVALUE"
  | getProperty => "OP_GET_PROPERTY" | setProperty => "OP_SET_PROPERTY"
  | getSuper => "OP_GET_SUPER"
  | equal => "OP_EQUAL" | greater => "OP_GREATER" | less => "OP_LESS"
  | add => "OP_ADD" | subtract => "OP_SUBTRACT" | multiply => "OP_MULTIPLY"
  | divide => "OP_DIVIDE" | not => "OP_NOT" | negate => "OP_NEGATE"
  | print => "OP_PRINT" | jump => "OP_JUMP" | jumpIfFalse => "OP_JUMP_IF_FALSE"
  | loop => "OP_LOOP"
  | call => "OP_CALL" | invoke => "OP_INVOKE" | superInvoke => "OP_SUPER_INVOKE"
  | closure => "OP_CLOSURE" | closeUpvalue => "OP_CLOSE_UPVALUE" | ret => "OP_RETURN"
  | cls => "OP_CLASS" | inherit => "OP_INHERIT" | method => "OP_METHOD"

/-- The operands of an operation. -/
def operands : Opcode → Operands
  | pushNil | pushTrue | pushFalse | pop | equal | greater | less
  | add | subtract | multiply | divide | not | negate
  | print | closeUpvalue | ret | inherit => .none
  | getLocal | setLocal | getUpvalue | setUpvalue | call => .byte
  | constant | getGlobal | defineGlobal | setGlobal | getProperty | setProperty | getSuper
  | cls | method => .constant
  | jump | jumpIfFalse => .forward
  | loop => .backward
  | invoke | superInvoke => .invocation
  | closure => .captures

end Opcode

end LoxMachine
