import LoxMachine.Chunk
import LoxMachine.Table

/-!
# Heap objects

* `fnv1a` is the hash of strings, and `Text` a string with its hash.
* `Object` is a heap object; objects refer to each other by handles only, so cycles need no special
  treatment.
* `Object.references` lists the handles an object holds, in the order in which they are traced.
* `Object.storage` is the number of bytes an object is charged for.
-/

namespace LoxMachine

/-! ## Strings -/

/-- The 32-bit FNV-1a hash of the bytes of a string. -/
def fnv1a (s : String) : UInt32 :=
  s.toUTF8.foldl (fun hash byte => (hash ^^^ byte.toUInt32) * 16777619) 2166136261

/-- The contents of a string object with their hash. -/
structure Text where
  contents : String
  hash : UInt32
  hash_eq : hash = fnv1a contents
  deriving DecidableEq

namespace Text

def ofString (s : String) : Text := ⟨s, fnv1a s, rfl⟩

instance : Inhabited Text := ⟨ofString ""⟩

end Text

/-! ## Functions -/

/-- A compiled function. The top-level script has no name. -/
structure Function where
  name : Option Handle := none
  arity : Nat := 0
  upvalueCount : Nat := 0
  chunk : Chunk := {}
  deriving Inhabited

/-- A function supplied by the host. It sees the reading of the clock at the call, in seconds, and
its arguments. -/
structure Native where
  name : String
  apply : Number → Array Value → Value

/-- Where a captured variable lives. -/
inductive Upvalue where
  /-- On the operand stack, at this slot. -/
  | stacked (slot : Nat)
  /-- In the upvalue itself. -/
  | closed (value : Value)
  deriving DecidableEq, Inhabited, Repr

namespace Upvalue

/-- The stack slot of a variable that is still on the stack. -/
def slot? : Upvalue → Option Nat
  | stacked slot => some slot
  | closed _ => none

end Upvalue

/-! ## Objects -/

/-- The kinds of heap objects. -/
inductive ObjectKind where
  | string | function | native | closure | upvalue | cls | inst | bound
  deriving DecidableEq, Inhabited, Repr

namespace ObjectKind

def name : ObjectKind → String
  | string => "string"
  | function => "function"
  | native => "native"
  | closure => "closure"
  | upvalue => "upvalue"
  | cls => "class"
  | inst => "instance"
  | bound => "bound method"

end ObjectKind

/-- A closure: a function with the variables it captured. -/
structure Closure where
  function : Handle
  upvalues : Array Handle := #[]
  deriving Inhabited

/-- A class: its name and its methods, inherited ones included. -/
structure Class where
  name : Handle
  methods : Table := {}
  deriving Inhabited

/-- An instance: its class and its fields. -/
structure Instance where
  cls : Handle
  fields : Table := {}
  deriving Inhabited

/-- A method paired with the receiver it was read from. -/
structure Bound where
  receiver : Value
  method : Handle
  deriving Inhabited

/-- A heap object. -/
inductive Object where
  | string (text : Text)
  | function (function : Function)
  | native (native : Native)
  | closure (closure : Closure)
  | upvalue (upvalue : Upvalue)
  | cls (cls : Class)
  | inst (inst : Instance)
  | bound (bound : Bound)

namespace Object

instance : Inhabited Object := ⟨upvalue default⟩

def kind : Object → ObjectKind
  | string _ => .string
  | function _ => .function
  | native _ => .native
  | closure _ => .closure
  | upvalue _ => .upvalue
  | cls _ => .cls
  | inst _ => .inst
  | bound _ => .bound

/-- The handles that an object holds, in the order in which they are traced. -/
def references : Object → List Handle
  | string _ | native _ => []
  | function f => f.name.toList ++ f.chunk.constants.toList.filterMap Value.handle?
  | closure c => c.function :: c.upvalues.toList
  | upvalue (.stacked _) => []
  | upvalue (.closed value) => value.handle?.toList
  | cls c => c.name :: c.methods.handles
  | inst i => i.cls :: i.fields.handles
  | bound b => b.receiver.handle?.toList ++ [b.method]

/-- The bytes charged for an object: a fixed part, and what its contents take. -/
def storage (o : Object) : Nat :=
  104 + match o with
    | string text => text.contents.utf8ByteSize
    | function f => f.chunk.storage
    | native _ | upvalue _ | bound _ => 0
    | closure c => 8 * c.upvalues.size
    | cls c => c.methods.storage
    | inst i => i.fields.storage

end Object

end LoxMachine
