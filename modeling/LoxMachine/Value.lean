import LoxMachine.Number

/-!
# Values

* `Handle` names a heap object: a place in the arena and the generation of that place. Freeing an
  object starts a new generation, so a handle that outlives its object names nothing.
* `Value` is what stacks, constant pools and tables hold.
* `Value.equals` is the equality of the language. Strings are interned, so comparing handles
  compares their contents.
-/

namespace LoxMachine

/-- A handle to a heap object. -/
structure Handle where
  index : Nat
  generation : UInt32 := 0
  deriving DecidableEq, Inhabited, Repr

namespace Handle

/-- The written form of a handle; a first generation is not written. -/
def text (h : Handle) : String :=
  if h.generation = 0 then s!"#{h.index}" else s!"#{h.index}.{h.generation}"

end Handle

/-- A value of the language. -/
inductive Value where
  | nil
  | bool (b : Bool)
  | number (n : Number)
  | obj (h : Handle)
  deriving DecidableEq, Inhabited, Repr

namespace Value

/-- `nil` and `false` count as false; every other value counts as true. -/
def isFalsey : Value → Bool
  | nil => true
  | bool b => !b
  | _ => false

def isNil : Value → Bool
  | nil => true
  | _ => false

/-- The number inside, if the value is a number. -/
def number? : Value → Option Number
  | number n => some n
  | _ => none

/-- The handle inside, if the value is an object. -/
def handle? : Value → Option Handle
  | obj h => some h
  | _ => none

/-- Equality of the language: numbers by value, objects by identity, and values of different kinds
never. -/
def equals : Value → Value → Bool
  | nil, nil => true
  | bool a, bool b => a == b
  | number a, number b => a.beq b
  | obj a, obj b => a == b
  | _, _ => false

@[simp] theorem equals_obj (a b : Handle) : equals (obj a) (obj b) = (a == b) := rfl

@[simp] theorem handle?_eq_some_iff {v : Value} {h : Handle} : v.handle? = some h ↔ v = obj h := by
  cases v <;> simp [handle?]

end Value

end LoxMachine
