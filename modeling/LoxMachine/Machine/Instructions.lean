import LoxMachine.Machine.Basic

/-!
# Instructions

What each operation does after its opcode byte has been read.

* Variables and properties: `getLocal`, …, `getSuper`.
* Operators: `equal`, `compare`, `arithmetic`, `add`, `not`, `negate`, `print`.
* Control flow: `jump`, `jumpIfFalse`, `jumpBack`.
* Calls: `callValue` calls any value, `call` a closure; `invoke` and `superInvoke` call a method
  without making a bound method; `ret` ends a call.
* Captured variables: `makeClosure`, `captureUpvalue` and `closeUpvalues`.
* Classes: `makeClass`, `inherit` and `method`.
-/

namespace LoxMachine

namespace Run

/-! ## Variables -/

def getLocal : Run Unit := do
  let index ← readByte
  push (← slot ((← frame).base + index.toNat))

def setLocal : Run Unit := do
  let index ← readByte
  let base := (← frame).base
  setSlot (base + index.toNat) (← peek 0)

def getGlobal : Run Unit := do
  let name ← readName
  let key ← look (·.key name)
  match (← get).globals.get? key with
  | some v => push v
  | none => fail (.undefinedVariable (← look (·.contents name)))

def defineGlobal : Run Unit := do
  let name ← readName
  let v ← peek 0
  let key ← look (·.key name)
  modify fun m => { m with globals := m.globals.insert key v }
  let _ ← pop

/-- Assignment never makes a global variable. -/
def setGlobal : Run Unit := do
  let name ← readName
  let key ← look (·.key name)
  let v ← peek 0
  let isNew ← modifyGet fun m =>
    let (isNew, globals) := m.globals.set key v
    (isNew, { m with globals })
  if isNew then
    modify fun m => { m with globals := (m.globals.delete key).2 }
    fail (.undefinedVariable (← look (·.contents name)))

/-- A captured variable of the running closure. -/
def frameUpvalue (index : UInt8) : Run Handle := do
  let closure := (← frame).closure
  match (← look (·.closure closure)).upvalues[index.toNat]? with
  | some h => return h
  | none => fail (.decode (.badConstant index))

def getUpvalue : Run Unit := do
  let h ← frameUpvalue (← readByte)
  match ← look (·.upvalue h) with
  | .stacked index => push (← slot index)
  | .closed v => push v

def setUpvalue : Run Unit := do
  let h ← frameUpvalue (← readByte)
  let v ← peek 0
  match ← look (·.upvalue h) with
  | .stacked index => setSlot index v
  | .closed _ => update (·.setUpvalue h (.closed v))

/-! ## Properties -/

/-- The method of a class. -/
def findMethod (cls name : Handle) : Run Handle := do
  let methods := (← look (·.cls cls)).methods
  let key ← look (·.key name)
  match methods.get? key with
  | some v => requireKind .closure v (.undefinedProperty (← look (·.contents name)))
  | none => fail (.undefinedProperty (← look (·.contents name)))

/-- Replace the receiver on top of the stack by a method of a class bound to it. -/
def bindMethod (cls name : Handle) : Run Unit := do
  let method ← findMethod cls name
  let receiver ← peek 0
  let bound ← alloc (.bound { receiver, method })
  let _ ← pop
  push (.obj bound)

/-- The field of an instance, if it is set, and the class. -/
def fieldOrClass (target name : Handle) : Run (Option Value × Handle) := do
  let i ← look (·.inst target)
  let key ← look (·.key name)
  return (i.fields.get? key, i.cls)

/-- Fields hide methods. -/
def getProperty : Run Unit := do
  let name ← readName
  let target ← requireKind .inst (← peek 0) .noProperties
  match ← fieldOrClass target name with
  | (some v, _) =>
    let _ ← pop
    push v
  | (none, cls) => bindMethod cls name

def setProperty : Run Unit := do
  let name ← readName
  let target ← requireKind .inst (← peek 1) .noFields
  let key ← look (·.key name)
  let v ← peek 0
  update (·.setField target key v)
  let v ← pop
  let _ ← pop
  push v

/-- Pop a class. -/
def popClass : Run Handle := do requireKind .cls (← pop) .superclassNotClass

def getSuper : Run Unit := do
  let name ← readName
  bindMethod (← popClass) name

/-! ## Operators -/

def equal : Run Unit := do
  let b ← pop
  let a ← pop
  push (.bool (a.equals b))

/-- Pop two numbers. -/
def popNumbers : Run (Number × Number) := do
  let a ← peek 1
  let b ← peek 0
  match a, b with
  | .number a, .number b =>
    let _ ← pop
    let _ ← pop
    return (a, b)
  | _, _ => fail .operandsNotNumbers

def compare (below : Number → Number → Bool) : Run Unit := do
  let (a, b) ← popNumbers
  push (.bool (below a b))

def arithmetic (op : Number → Number → Number) : Run Unit := do
  let (a, b) ← popNumbers
  push (.number (op a b))

/-- Both strings stay on the stack until the result exists. -/
def concatenate (a b : Handle) : Run Unit := do
  let s ← look (·.contents a)
  let t ← look (·.contents b)
  let h ← intern (s ++ t)
  let _ ← pop
  let _ ← pop
  push (.obj h)

/-- Two numbers are added and two strings joined. -/
def add : Run Unit := do
  let b ← peek 0
  let a ← peek 1
  match a, b with
  | .number m, .number n =>
    let _ ← pop
    let _ ← pop
    push (.number (m.add n))
  | _, _ =>
    let s ← asKind .string a
    let t ← asKind .string b
    match s, t with
    | some s, some t => concatenate s t
    | _, _ => fail .operandsNotNumbersOrStrings

def not : Run Unit := do
  let v ← pop
  push (.bool v.isFalsey)

def negate : Run Unit := do
  match ← peek 0 with
  | .number n => poke 0 (.number n.neg)
  | _ => fail .operandNotNumber

def print : Run Unit := do
  let v ← pop
  let text ← look (·.display v)
  let accepted ← modifyGet fun m =>
    let (accepted, sink) := m.sink.write (text ++ "\n")
    (accepted, { m with sink })
  if !accepted then fail (.output Sink.full)

/-! ## Control flow -/

def jump : Run Unit := do
  let distance ← readDistance
  jumpTo ((← frame).ip + distance)

def jumpIfFalse : Run Unit := do
  let distance ← readDistance
  if (← peek 0).isFalsey then jumpTo ((← frame).ip + distance)

def jumpBack : Run Unit := do
  let distance ← readDistance
  let ip := (← frame).ip
  if distance ≤ ip then jumpTo (ip - distance) else fail (.decode (.truncated ip))

/-! ## Calls -/

/-- Call a closure that sits below its arguments. The slots it needs are counted in a word. -/
def call (closure : Handle) (count : Nat) : Run Unit := do
  let function := (← look (·.closure closure)).function
  let arity := (← look (·.function function)).arity
  if count ≠ arity then fail (.arityMismatch arity count)
  let m ← get
  if maxFrames ≤ m.frames.length then fail .stackOverflow
  let needed := wrap (count + 1)
  if m.stack.size < needed then fail .stackUnderflow
  let base := m.stack.size - needed
  modify fun m => { m with frames := { closure, function, base } :: m.frames }

/-- Call a native function. Its arguments and the function itself give way to the result. -/
def callNative (h : Handle) (count : Nat) : Run Unit := do
  let native ← look (·.native h)
  let m ← get
  if m.stack.size < count then fail .stackUnderflow
  let start := m.stack.size - count
  let result := native.apply (m.clock m.nativeCalls) (m.stack.extract start m.stack.size)
  modify fun m => { m with nativeCalls := m.nativeCalls + 1 }
  truncate (start - 1)
  push result

/-- Call a class: a new instance takes its place below the arguments, and its initializer, if there
is one, is called. -/
def instantiate (cls : Handle) (count : Nat) : Run Unit := do
  let target ← alloc (.inst { cls })
  poke count (.obj target)
  let methods := (← look (·.cls cls)).methods
  let initName := (← get).initName
  let key ← look (·.key initName)
  let initializer ← match methods.get? key with
    | some v => asKind .closure v
    | none => pure none
  match initializer with
  | some init => call init count
  | none => if count ≠ 0 then fail (.arityMismatch 0 count)

/-- Call a value that sits below its arguments. -/
def callValue (callee : Value) (count : Nat) : Run Unit := do
  match callee with
  | .obj h =>
    match ← look (·.object h) with
    | .bound b =>
      poke count b.receiver
      call b.method count
    | .cls _ => instantiate h count
    | .closure _ => call h count
    | .native _ => callNative h count
    | _ => fail .notCallable
  | _ => fail .notCallable

def callInstruction : Run Unit := do
  let count := (← readByte).toNat
  callValue (← peek count) count

/-- Call the method of a class on a receiver below the arguments. -/
def invokeFromClass (cls name : Handle) (count : Nat) : Run Unit := do
  call (← findMethod cls name) count

/-- Call a property of the receiver below the arguments. A field hides a method. -/
def invoke : Run Unit := do
  let name ← readName
  let count := (← readByte).toNat
  let target ← requireKind .inst (← peek count) .noMethods
  match ← fieldOrClass target name with
  | (some v, _) =>
    poke count v
    callValue v count
  | (none, cls) => invokeFromClass cls name count

def superInvoke : Run Unit := do
  let name ← readName
  let count := (← readByte).toNat
  invokeFromClass (← popClass) name count

/-! ## Captured variables -/

/-- Search the captured variables that are on the stack, the highest slot first: the one of a slot,
if it is there, and how many come before its place. -/
def searchOpen (heap : Heap) (index : Nat) : List Handle → Except Fault (Option Handle × Nat)
  | [] => return (none, 0)
  | h :: rest => do
    let place := (← heap.upvalue h).slot?
    if place = some index then return (some h, 0)
    else if place.all (index ≤ ·) then
      let (found, before) ← searchOpen heap index rest
      return (found, before + 1)
    else return (none, 0)

/-- The captured variable of a stack slot, made if there is none. -/
def captureUpvalue (index : Nat) : Run Handle := do
  let opened := (← get).openUpvalues
  match ← look (searchOpen · index opened) with
  | (some h, _) => return h
  | (none, before) =>
    let h ← alloc (.upvalue (.stacked index))
    modify fun m => { m with openUpvalues := m.openUpvalues.insertIdx before h }
    return h

/-- Move the given captured variables off the stack, up to the first below `last`. -/
def closeFrom (last : Nat) : List Handle → Run Unit
  | [] => return
  | h :: rest => do
    match ← look (·.upvalue h) with
    | .closed _ =>
      modify fun m => { m with openUpvalues := rest }
      closeFrom last rest
    | .stacked index =>
      if last ≤ index then
        let v ← slot index
        update (·.setUpvalue h (.closed v))
        modify fun m => { m with openUpvalues := rest }
        closeFrom last rest

/-- Move every captured variable at or above a stack slot off the stack. -/
def closeUpvalues (last : Nat) : Run Unit := do closeFrom last (← get).openUpvalues

/-- Read which variables a closure captures, and capture them. -/
def captures (base : Nat) : (count : Nat) → Array Handle → Run (Array Handle)
  | 0, upvalues => return upvalues
  | count + 1, upvalues => do
    let origin ← readByte
    let index ← readByte
    let h ← if origin ≠ 0 then captureUpvalue (base + index.toNat) else frameUpvalue index
    captures base count (upvalues.push h)

/-- Make a closure of a function, with the variables that it captures. No storage is set aside for as many of
them as the function asks for: the list of them grows while their places are read. -/
def makeClosure : Run Unit := do
  let function ← readObject .function
  let count := (← look (·.function function)).upvalueCount
  let base := (← frame).base
  let upvalues ← captures base count #[]
  push (.obj (← alloc (.closure { function, upvalues })))

/-- Move the variable on top of the stack off it. -/
def closeTop : Run Unit := do
  let top ← below 0
  closeUpvalues top
  let _ ← pop

/-- End a call. The answer is whether it was the outermost one. -/
def ret : Run Bool := do
  let result ← pop
  let f ← frame
  modify fun m => { m with frames := m.frames.tail }
  closeUpvalues f.base
  if (← get).frames.isEmpty then
    modify fun m => { m with stack := #[] }
    return true
  truncate f.base
  push result
  return false

/-! ## Classes -/

def makeClass : Run Unit := do
  let name ← readName
  push (.obj (← alloc (.cls { name })))

/-- Methods are copied down, so those defined later replace inherited ones. -/
def inherit : Run Unit := do
  let super ← requireKind .cls (← peek 1) .superclassNotClass
  let sub ← requireKind .cls (← peek 0) .notCallable
  update (·.inheritMethods super sub)
  let _ ← pop

def method : Run Unit := do
  let name ← readName
  let v ← peek 0
  let cls ← requireKind .cls (← peek 1) .notCallable
  let _ ← requireKind .closure v .notCallable
  let key ← look (·.key name)
  update (·.setMethod cls key v)
  let _ ← pop

end Run

end LoxMachine
