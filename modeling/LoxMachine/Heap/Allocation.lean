import LoxMachine.Heap.Collection

/-!
# Allocation and change

* `Heap.alloc` makes an object, collecting first when the heap is over its limit. The references of
  the new object count as roots of that collection, so an object may be built from values that are
  held nowhere else.
* `Heap.intern` is the string object with given contents, made if there is none.
* `Heap.setField`, `setMethod`, `inheritMethods` and `setUpvalue` change objects in place; a table
  that grows is charged for.
-/

namespace LoxMachine

namespace Heap

/-! ## Allocation -/

/-- Put an object into a place of the arena, a freed one if possible. It becomes the newest one, and is
not marked. -/
def place (heap : Heap) (o : Object) (bytes : Nat) : Handle × Heap :=
  let cell : Cell := { object := o, bytes }
  match heap.free with
  | index :: free =>
    let generation := heap.entries[index]?.elim 0 Entry.generation
    let h : Handle := { index, generation }
    (h, { heap with
      entries := put heap.entries index { generation, cell := some cell }
      free, head := some h
      links := put heap.links index heap.head
      marks := put heap.marks index false })
  | [] =>
    let h : Handle := { index := heap.entries.size }
    (h, { heap with
      entries := heap.entries.push { cell := some cell }
      head := some h
      links := heap.links.push heap.head
      marks := heap.marks.push false })

/-- Whether the next allocation collects. -/
def isDue (heap : Heap) : Bool := heap.config.stress || heap.limit < heap.bytes

/-- Make an object. If the heap is over its limit with the new object, collect first: the references of
the object are reached before the roots are. -/
def alloc (heap : Heap) (roots : Thunk (List Handle)) (o : Object) : Handle × Heap :=
  let bytes := o.storage
  let kind := o.kind
  let heap := { heap with bytes := heap.bytes + bytes }
  let heap := if heap.isDue then (heap.markAll o.references).collect roots.get else heap
  let (h, heap) := heap.place o bytes
  (h, heap.record (.allocated h bytes kind))

/-! ## Interning -/

/-- Whether a handle names a string object with the given contents. -/
def hasContents (heap : Heap) (s : String) (h : Handle) : Bool :=
  match heap.cell? h with
  | some { object := .string text, .. } => text.contents == s
  | _ => false

/-- The string object with the given contents, made if there is none. -/
def intern (heap : Heap) (roots : Thunk (List Handle)) (s : String) : Handle × Heap :=
  let text := Text.ofString s
  match heap.strings.findBy text.hash (heap.hasContents s) with
  | some h => (h, heap)
  | none =>
    let (h, heap) := heap.alloc roots (.string text)
    (h, { heap with strings := heap.strings.insert ⟨h, text.hash⟩ .nil })

/-! ## Changing objects -/

/-- Replace the object in a place and charge for its new size. -/
def replace (heap : Heap) (h : Handle) (o : Object) : Heap :=
  match heap.cell? h with
  | none => heap
  | some cell =>
    let bytes := o.storage
    { heap with
      entries := put heap.entries h.index
        { generation := h.generation, cell := some { object := o, bytes } }
      bytes := heap.bytes - cell.bytes + bytes }

/-- Set a field of an instance. -/
@[inline] def setField (heap : Heap) (h : Handle) (key : Key) (value : Value) :
    Except Fault Heap := do
  let i ← heap.inst h
  return heap.replace h (.inst { i with fields := i.fields.insert key value })

/-- Define or replace a method of a class. -/
@[inline] def setMethod (heap : Heap) (h : Handle) (key : Key) (value : Value) :
    Except Fault Heap := do
  let c ← heap.cls h
  return heap.replace h (.cls { c with methods := c.methods.insert key value })

/-- Copy every method of one class into another, replacing methods of the same name. -/
@[inline] def inheritMethods (heap : Heap) (super sub : Handle) : Except Fault Heap := do
  let inherited := (← heap.cls super).methods
  let c ← heap.cls sub
  return heap.replace sub (.cls { c with methods := inherited.addAll c.methods })

/-- Change where a captured variable lives. -/
@[inline] def setUpvalue (heap : Heap) (h : Handle) (u : Upvalue) : Except Fault Heap := do
  let _ ← heap.upvalue h
  return heap.replace h (.upvalue u)

end Heap

end LoxMachine
