import LoxMachine.Heap.Allocation
import LoxMachine.RuntimeError
import LoxMachine.Sink

/-!
# The machine

A stack machine: an operand stack shared by all active calls, one frame for each of them, the global
variables, and the captured variables that are still on the stack.

* `Machine` is the state and `Run` the actions on it. An action that fails keeps the state it has
  reached.
* `Failure` is a runtime error of the program, or a fault of the heap, which no reachable state has.
* `push`, `pop`, `peek` and `poke` use the stack from its top, `slot` and `setSlot` from its bottom.
* `alloc` and `intern` make objects; everything the machine refers to is a root.
-/

namespace LoxMachine

/-- An active call. -/
structure Frame where
  closure : Handle
  function : Handle
  /-- The offset of the next instruction. -/
  ip : Nat := 0
  /-- The stack index of slot `0`. -/
  base : Nat
  deriving DecidableEq, Inhabited, Repr

/-- The most calls that can be active. -/
def maxFrames : Nat := 64

/-- The most values on the stack: a byte of slots for every call. -/
def maxStack : Nat := 16384

/-- The state of the machine. -/
structure Machine where
  heap : Heap
  stack : Array Value := #[]
  /-- The active calls, the innermost first. -/
  frames : List Frame := []
  globals : Table := {}
  /-- The captured variables that are still on the stack, the highest slot first. -/
  openUpvalues : List Handle := []
  /-- The name of initializers. -/
  initName : Handle
  sink : Sink := {}
  /-- The readings of the clock, in seconds, one for each call of a native function. -/
  clock : Nat → Number := fun _ => ⟨0⟩
  /-- How often native functions have been called. -/
  nativeCalls : Nat := 0

/-- Why an action fails. -/
inductive Failure where
  | error (e : RuntimeError)
  | fault (f : Fault)
  deriving DecidableEq, Repr

/-- An action of the machine. -/
abbrev Run := EStateM Failure Machine

namespace Machine

/-- Everything that keeps objects alive: the stack from its bottom, the calls and the captured
variables from the outermost, the global variables, and the name of initializers. -/
def handles (stack : Array Value) (frames : List Frame) (openUpvalues : List Handle)
    (globals : Table) (initName : Handle) : List Handle :=
  stack.toList.filterMap Value.handle? ++ frames.reverse.map Frame.closure ++
    openUpvalues.reverse ++ globals.handles ++ [initName]

/-- The roots of a collection. -/
def roots (m : Machine) : List Handle :=
  handles m.stack m.frames m.openUpvalues m.globals m.initName

end Machine

namespace Run

/-- Fail with a runtime error. -/
@[inline] def fail {α : Type} (e : RuntimeError) : Run α := throw (.error e)

/-- Read the heap. -/
@[inline] def look {α : Type} (f : Heap → Except Fault α) : Run α := do
  match f (← get).heap with
  | .ok a => return a
  | .error e => throw (.fault e)

/-- Change the heap. -/
@[inline] def update (f : Heap → Except Fault Heap) : Run Unit := fun m =>
  match f m.heap with
  | .ok heap => .ok () { m with heap }
  | .error e => .error (.fault e) m

/-! ## The stack -/

/-- Push a value. -/
@[inline] def push (v : Value) : Run Unit := do
  if maxStack ≤ (← get).stack.size then fail .stackOverflow
  modify fun m => { m with stack := m.stack.push v }

/-- Pop the value on top. -/
@[inline] def pop : Run Value := do
  match (← get).stack.back? with
  | some v =>
    modify fun m => { m with stack := m.stack.pop }
    return v
  | none => fail .stackUnderflow

/-- The value at a stack index. -/
@[inline] def slot (index : Nat) : Run Value := do
  match (← get).stack[index]? with
  | some v => return v
  | none => fail .stackUnderflow

/-- Overwrite the value at a stack index. -/
@[inline] def setSlot (index : Nat) (v : Value) : Run Unit := do
  if index < (← get).stack.size then
    modify fun m => { m with stack := put m.stack index v }
  else fail .stackUnderflow

/-- The stack index `distance` below the top. -/
@[inline] def below (distance : Nat) : Run Nat := do
  let size := (← get).stack.size
  if distance < size then return size - 1 - distance else fail .stackUnderflow

/-- The value `distance` below the top. -/
@[inline] def peek (distance : Nat) : Run Value := do slot (← below distance)

/-- Overwrite the value `distance` below the top. -/
@[inline] def poke (distance : Nat) (v : Value) : Run Unit := do setSlot (← below distance) v

/-- Keep only the lowest `size` values. -/
@[inline] def truncate (size : Nat) : Run Unit :=
  modify fun m => { m with stack := m.stack.shrink size }

/-! ## Objects -/

/-- A new object. -/
def alloc (o : Object) : Run Handle :=
  modifyGet fun
    ⟨heap, stack, frames, globals, openUpvalues, initName, sink, clock, nativeCalls⟩ =>
    let (h, heap) := heap.alloc (Machine.handles stack frames openUpvalues globals initName) o
    (h, ⟨heap, stack, frames, globals, openUpvalues, initName, sink, clock, nativeCalls⟩)

/-- The string object with given contents. -/
def intern (s : String) : Run Handle :=
  modifyGet fun
    ⟨heap, stack, frames, globals, openUpvalues, initName, sink, clock, nativeCalls⟩ =>
    let (h, heap) := heap.intern (Machine.handles stack frames openUpvalues globals initName) s
    (h, ⟨heap, stack, frames, globals, openUpvalues, initName, sink, clock, nativeCalls⟩)

/-- The handle of a value that is an object of the given kind. -/
@[inline] def asKind (kind : ObjectKind) (v : Value) : Run (Option Handle) :=
  look (·.asKind kind v)

/-- The handle of a value that must be an object of the given kind. -/
@[inline] def requireKind (kind : ObjectKind) (v : Value) (otherwise : RuntimeError) :
    Run Handle := do
  match ← asKind kind v with
  | some h => return h
  | none => fail otherwise

/-! ## Frames and operands -/

/-- The innermost call. -/
@[inline] def frame : Run Frame := do
  match (← get).frames with
  | f :: _ => return f
  | [] => fail .noActiveFrame

/-- Go on at another offset of the running function. -/
@[inline] def jumpTo (ip : Nat) : Run Unit :=
  modify fun m =>
    match m.frames with
    | f :: rest => { m with frames := { f with ip } :: rest }
    | [] => m

/-- The code of the running function. -/
@[inline] def runningChunk (f : Frame) : Run Chunk := do
  return (← look (·.function f.function)).chunk

/-- The next byte of code. -/
def readByte : Run UInt8 := do
  let f ← frame
  match (← runningChunk f).read8 f.ip with
  | .ok byte =>
    jumpTo (f.ip + 1)
    return byte
  | .error e => fail (.decode e)

/-- The next two bytes of code as a distance. -/
def readDistance : Run Nat := do
  let f ← frame
  match (← runningChunk f).read16 f.ip with
  | .ok distance =>
    jumpTo (f.ip + 2)
    return distance
  | .error e => fail (.decode e)

/-- The operation that the next byte encodes. -/
def readOpcode : Run Opcode := do
  let byte ← readByte
  match Opcode.ofByte? byte with
  | some op => return op
  | none => fail (.decode (.unknownOpcode byte))

/-- The constant that the next byte names. -/
def readConstant : Run Value := do
  let index ← readByte
  match (← runningChunk (← frame)).constants[index.toNat]? with
  | some v => return v
  | none => fail (.decode (.badConstant index))

/-- The constant that the next byte names, which must be an object of the given kind. -/
def readObject (kind : ObjectKind) : Run Handle := do
  let index ← readByte
  match (← runningChunk (← frame)).constants[index.toNat]? with
  | some v => requireKind kind v (.decode (.badConstant index))
  | none => fail (.decode (.badConstant index))

/-- The string constant that the next byte names. -/
def readName : Run Handle := readObject .string

end Run

end LoxMachine
