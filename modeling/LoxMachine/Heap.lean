import LoxMachine.Journal
import LoxMachine.Number.Text
import LoxMachine.Word

/-!
# The heap

Objects live in an arena of entries. An entry has a generation, which grows when its object is
freed; a handle names an object only while the generations agree.

* `Heap.cell?` is the storage that a handle names, and `Heap.object` the object, failing with a
  `Fault` when the handle has outlived it.
* `Heap.next` is the object made before another one: the objects are threaded from `Heap.head` on, so
  that a sweep visits them without a list of its own.
* `Heap.string`, `Heap.function`, … are the objects of one kind, failing also on any other.
* `Heap.display` is the text that `print` writes for a value.
-/

namespace LoxMachine

/-- When to collect. -/
structure GcConfig where
  /-- Collect before every allocation. -/
  stress : Bool := false
  /-- The number of bytes past which the first collection runs. -/
  threshold : Nat := 1048576
  /-- After a collection the next one runs past the bytes that are left times this, as a word. -/
  growth : Nat := 2
  deriving DecidableEq, Inhabited, Repr

/-- An object with the bytes charged for it. -/
structure Cell where
  object : Object
  bytes : Nat
  deriving Inhabited

/-- A place of the arena. -/
structure Entry where
  generation : UInt32 := 0
  cell : Option Cell := none
  deriving Inhabited

/-- A collected heap. -/
structure Heap where
  config : GcConfig := {}
  entries : Array Entry := #[]
  /-- The places without an object, the next one to be used first. -/
  free : List Nat := []
  /-- The newest object. The others follow it by their links. -/
  head : Option Handle := none
  /-- For each place, the object that was made before the one in it. -/
  links : Array (Option Handle) := #[]
  /-- For each place, whether the object in it has been reached. -/
  marks : Array Bool := #[]
  /-- The objects that have been reached and not yet followed, the next one first. -/
  gray : List Handle := []
  /-- The interned strings. -/
  strings : Table := {}
  /-- The bytes charged for all objects. -/
  bytes : Nat := 0
  /-- A collection runs when more bytes than this are charged. -/
  limit : Nat := config.threshold
  collections : Nat := 0
  journal : Journal := {}
  deriving Inhabited

/-- A use of a handle that the heap rejects. -/
inductive Fault where
  /-- The object is gone. -/
  | freed (handle : Handle)
  | wrongKind (handle : Handle) (found expected : ObjectKind)
  deriving DecidableEq, Repr

namespace Fault

def message : Fault → String
  | freed handle => s!"use of freed object {handle.text}"
  | wrongKind handle found expected =>
    s!"object {handle.text} is a {found.name}, expected a {expected.name}"

end Fault

namespace Heap

/-! ## Counts -/

/-- How many objects there are. -/
def objectCount (heap : Heap) : Nat := heap.entries.size - heap.free.length

/-- How many strings are interned. -/
def internedCount (heap : Heap) : Nat := heap.strings.live

/-- Report an event. -/
def record (heap : Heap) (e : Event) : Heap :=
  if heap.journal.admits e.level then { heap with journal := heap.journal.record e } else heap

/-! ## Looking up -/

/-- The storage that a handle names, if the generations agree. -/
@[inline] def cell? (heap : Heap) (h : Handle) : Option Cell :=
  match heap.entries[h.index]? with
  | some { generation, cell := some cell } =>
    if generation = h.generation then some cell else none
  | _ => none

/-- Whether a handle still names an object. -/
def contains (heap : Heap) (h : Handle) : Bool := (heap.cell? h).isSome

/-- The object that was made before the one of a handle, and is still there. -/
def next (heap : Heap) (h : Handle) : Option Handle := heap.links[h.index]?.getD none

/-- The object that a handle names. -/
@[inline] def object (heap : Heap) (h : Handle) : Except Fault Object :=
  match heap.cell? h with
  | some cell => .ok cell.object
  | none => .error (.freed h)

/-- The kind of the object that a value refers to, if it refers to one. -/
def kindOf (heap : Heap) : Value → Except Fault (Option ObjectKind)
  | .obj h => return some (← heap.object h).kind
  | _ => return none

/-- The handle of a value that is an object of the given kind. -/
@[inline] def asKind (heap : Heap) (kind : ObjectKind) : Value → Except Fault (Option Handle)
  | .obj h => do
    let o ← heap.object h
    return if o.kind = kind then some h else none
  | _ => return none

/-! ## Objects of one kind -/

@[inline] def string (heap : Heap) (h : Handle) : Except Fault Text := do
  match ← heap.object h with
  | .string text => return text
  | o => throw (.wrongKind h o.kind .string)

@[inline] def function (heap : Heap) (h : Handle) : Except Fault Function := do
  match ← heap.object h with
  | .function f => return f
  | o => throw (.wrongKind h o.kind .function)

def native (heap : Heap) (h : Handle) : Except Fault Native := do
  match ← heap.object h with
  | .native n => return n
  | o => throw (.wrongKind h o.kind .native)

@[inline] def closure (heap : Heap) (h : Handle) : Except Fault Closure := do
  match ← heap.object h with
  | .closure c => return c
  | o => throw (.wrongKind h o.kind .closure)

@[inline] def upvalue (heap : Heap) (h : Handle) : Except Fault Upvalue := do
  match ← heap.object h with
  | .upvalue u => return u
  | o => throw (.wrongKind h o.kind .upvalue)

@[inline] def cls (heap : Heap) (h : Handle) : Except Fault Class := do
  match ← heap.object h with
  | .cls c => return c
  | o => throw (.wrongKind h o.kind .cls)

@[inline] def inst (heap : Heap) (h : Handle) : Except Fault Instance := do
  match ← heap.object h with
  | .inst i => return i
  | o => throw (.wrongKind h o.kind .inst)

def bound (heap : Heap) (h : Handle) : Except Fault Bound := do
  match ← heap.object h with
  | .bound b => return b
  | o => throw (.wrongKind h o.kind .bound)

/-- The table key of a string object. -/
@[inline] def key (heap : Heap) (h : Handle) : Except Fault Key := do
  return ⟨h, (← heap.string h).hash⟩

/-- The contents of a string object. -/
def contents (heap : Heap) (h : Handle) : Except Fault String := do
  return (← heap.string h).contents

/-! ## Texts -/

/-- The name of a function in reports. -/
def functionName (heap : Heap) (h : Handle) : Except Fault String := do
  match (← heap.function h).name with
  | some name => heap.contents name
  | none => return "script"

/-- The text of a function. -/
def displayFunction (heap : Heap) (h : Handle) : Except Fault String := do
  match (← heap.function h).name with
  | some name => return "<fn " ++ (← heap.contents name) ++ ">"
  | none => return "<script>"

/-- The text that `print` writes for a value. -/
def display (heap : Heap) : Value → Except Fault String
  | .nil => return "nil"
  | .bool b => return if b then "true" else "false"
  | .number n => return n.text
  | .obj h => do
    match ← heap.object h with
    | .string text => return text.contents
    | .function _ => heap.displayFunction h
    | .native _ => return "<native fn>"
    | .closure c => heap.displayFunction c.function
    | .upvalue _ => return "upvalue"
    | .cls c => heap.contents c.name
    | .inst i => return (← heap.contents (← heap.cls i.cls).name) ++ " instance"
    | .bound b => heap.displayFunction (← heap.closure b.method).function

/-! ## Nested functions -/

/-- The functions among the constants of a function, in order. -/
def innerFunctions (heap : Heap) (f : Function) : Except Fault (List Handle) :=
  f.chunk.constants.toList.filterMapM (heap.asKind .function)

/-- A function followed by the functions nested in it to the given depth, each before the ones
nested in it. -/
def functionsTo (heap : Heap) : Nat → Handle → Except Fault (List Handle)
  | 0, h => return [h]
  | depth + 1, h => do
    let inner ← heap.innerFunctions (← heap.function h)
    return h :: (← inner.mapM (heap.functionsTo depth)).flatten

/-- A function followed by all functions nested in it. A function is made after the ones nested in
it, so they are never nested deeper than there are objects. -/
def functionTree (heap : Heap) (h : Handle) : Except Fault (List Handle) :=
  heap.functionsTo heap.entries.size h

end Heap

end LoxMachine
