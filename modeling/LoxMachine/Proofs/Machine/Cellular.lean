import LoxMachine.Proofs.Machine.Overlooks

/-!
# A machine with a cell for every variable

The same machine, but each local variable is a cell of its own, which the stack and the captured
variables refer to. A captured variable never moves: leaving a block or a call only takes its cell off
the stack.

* `Cellular` is the state: the cells, which cell each slot of the stack is, and which cell each
  captured variable is.
* `Cellular.view` is what is seen of it when every cell stands for its value, and `Cellular.lift` does
  to it what an action of the machine does to that: slots that stay keep their cells, and slots that
  are new get new ones.
* `getLocal`, `setLocal`, `getUpvalue`, `setUpvalue`, `makeClosure`, `closeTop` and `ret` are the
  instructions that deal with variables. All others are lifted.
* `Cellular.step` is one step and `Cellular.run` a number of steps.
-/

namespace LoxMachine

/-- The state of a machine with a cell for every variable. -/
structure Cellular where
  /-- The objects, without the values of captured variables. -/
  heap : Heap
  /-- The value of each cell. -/
  cells : Nat → Value
  /-- The next cell that has not been used. -/
  next : Nat
  /-- The cell of each slot of the stack, from its bottom. -/
  stack : List Nat
  /-- The cell of each captured variable. -/
  cellOf : Handle → Nat
  frames : List Frame
  globals : Table
  initName : Handle
  sink : Sink
  clock : Nat → Number
  nativeCalls : Nat

/-- An action of the machine with cells. -/
abbrev Cells := EStateM Failure Cellular

namespace Cellular

/-! ## What is seen of it -/

/-- The value of a captured variable. -/
def value (r : Cellular) (u : Handle) : Value := r.cells (r.cellOf u)

/-- The captured variables whose cells are on the stack. -/
def captured (r : Cellular) : List Handle :=
  r.heap.objects.filter fun u => r.heap.kind? u = some .upvalue ∧ r.cellOf u ∈ r.stack

/-- Every cell stands for its value. -/
def view (r : Cellular) : Machine where
  heap := r.heap.fill r.value
  stack := (r.stack.map r.cells).toArray
  frames := r.frames
  globals := r.globals
  openUpvalues := r.captured
  initName := r.initName
  sink := r.sink
  clock := r.clock
  nativeCalls := r.nativeCalls

/-- The cells of the slots when the stack has another height: those that stay keep their cells, and
those that are new get new ones. -/
def slots (r : Cellular) (height : Nat) : List Nat :=
  r.stack.take height ++ List.range' r.next (height - r.stack.length)

/-- The view has changed: the cell of each slot has the value that is there now. -/
def absorb (r : Cellular) (m : Machine) : Cellular where
  heap := m.heap.blank
  cells c := m.stack[(r.slots m.stack.size).idxOf c]?.getD (r.cells c)
  next := r.next + (m.stack.size - r.stack.length)
  stack := r.slots m.stack.size
  cellOf := r.cellOf
  frames := m.frames
  globals := m.globals
  initName := m.initName
  sink := m.sink
  clock := m.clock
  nativeCalls := m.nativeCalls

/-- Do what an action does to the view. -/
def lift {α : Type} (x : Run α) : Cells α := fun r =>
  match x r.view with
  | .ok a m => .ok a (r.absorb m)
  | .error e m => .error e (r.absorb m)

instance : MonadLift Run Cells := ⟨lift⟩

/-! ## Cells -/

/-- The cell of a slot. -/
def cellAt (index : Nat) : Cells Nat := do
  match (← get).stack[index]? with
  | some c => return c
  | none => throw (.error .stackUnderflow)

def read (c : Nat) : Cells Value := return (← get).cells c

/-- The value of a slot is that of its cell. -/
def valueAt (index : Nat) : Cells Value := do read (← cellAt index)

def write (c : Nat) (v : Value) : Cells Unit :=
  modify fun r => { r with cells := Function.update r.cells c v }

/-- A new variable on top of the stack. Its value is yet to come. -/
def reserve : Cells Unit :=
  modify fun r => { r with cells := Function.update r.cells r.next .nil, next := r.next + 1,
                           stack := r.stack ++ [r.next] }

/-! ## Variables -/

def getLocal : Cells Unit := do
  let index ← Run.readByte
  Run.push (← valueAt ((← Run.frame).base + index.toNat))

def setLocal : Cells Unit := do
  let index ← Run.readByte
  let base := (← Run.frame).base
  let v ← Run.peek 0
  write (← cellAt (base + index.toNat)) v

/-- The cell of a captured variable. -/
def cellOfUpvalue (h : Handle) : Cells Nat := do
  let _ ← Run.look (·.upvalue h)
  return (← get).cellOf h

def getUpvalue : Cells Unit := do
  let c ← cellOfUpvalue (← Run.frameUpvalue (← Run.readByte))
  Run.push (← read c)

def setUpvalue : Cells Unit := do
  let h ← Run.frameUpvalue (← Run.readByte)
  let v ← Run.peek 0
  write (← cellOfUpvalue h) v

/-! ## Closures -/

/-- The captured variable with a cell, made if there is none. -/
def capture (c : Nat) : Cells Handle := do
  let r ← get
  match r.captured.find? (r.cellOf · = c) with
  | some h => return h
  | none =>
    let h ← Run.alloc (.upvalue (.closed .nil))
    modify fun r => { r with cellOf := Function.update r.cellOf h c }
    return h

/-- The captured variable of a slot. -/
def captureAt (index : Nat) : Cells Handle := do capture (← cellAt index)

/-- Read which variables a closure captures, and capture them. -/
def captures (base : Nat) : (count : Nat) → Array Handle → Cells (Array Handle)
  | 0, upvalues => return upvalues
  | count + 1, upvalues => do
    let origin ← Run.readByte
    let index ← Run.readByte
    let h ← if origin ≠ 0 then captureAt (base + index.toNat) else Run.frameUpvalue index
    captures base count (upvalues.push h)

/-- The variable of a local function is there before the closure that it will hold, so that the
function can capture it. -/
def makeClosure : Cells Unit := do
  reserve
  let function ← Run.readObject .function
  let count := (← Run.look (·.function function)).upvalueCount
  let base := (← Run.frame).base
  let upvalues ← captures base count #[]
  Run.poke 0 (.obj (← Run.alloc (.closure { function, upvalues })))
  if maxStack < (← get).stack.length then throw (.error .stackOverflow)

/-! ## Leaving -/

/-- Leave a block that ends with a captured variable. -/
def closeTop : Cells Unit := do
  let _ ← Run.pop

/-- End a call. -/
def ret : Cells Bool := do
  let result ← Run.pop
  let f ← Run.frame
  modify fun r => { r with frames := r.frames.tail }
  if (← get).frames.isEmpty then
    modify fun r => { r with stack := [] }
    return true
  Run.truncate f.base
  Run.push result
  return false

/-! ## Execution -/

/-- Perform an operation whose opcode byte has been read. -/
def perform : Opcode → Cells Bool
  | .getLocal => do getLocal; return false
  | .setLocal => do setLocal; return false
  | .getUpvalue => do getUpvalue; return false
  | .setUpvalue => do setUpvalue; return false
  | .closure => do makeClosure; return false
  | .closeUpvalue => do closeTop; return false
  | .ret => ret
  | op => lift (Run.perform op)

/-- One step: the answer is whether the outermost call has ended. -/
def step : Cells Bool := do perform (← Run.readOpcode)

/-- How far an execution has come. -/
inductive Outcome where
  | finished (r : Cellular)
  | failed (why : Failure) (r : Cellular)
  | running (r : Cellular)

/-- Up to `fuel` steps. -/
def run : (fuel : Nat) → Cellular → Outcome
  | 0, r => .running r
  | fuel + 1, r =>
    match step r with
    | .ok true r => .finished r
    | .ok false r => r.run fuel
    | .error why r => .failed why r

/-- The state in which nothing has been captured: every slot of the stack is a cell of its own. -/
def start (m : Machine) : Cellular :=
  absorb ⟨m.heap, fun _ => .nil, 0, [], fun _ => 0, m.frames, m.globals, m.initName, m.sink, m.clock,
    m.nativeCalls⟩ m

end Cellular

end LoxMachine
