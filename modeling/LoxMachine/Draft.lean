import LoxMachine.Diagnosis
import LoxMachine.Object

/-!
# Functions under construction

A function that is being compiled is a draft: its code so far, the local variables in scope, and the
variables of enclosing functions that it captures.

* `Draft.findLocal` finds a local variable. The innermost variable of a name is the one declared
  last.
* `Draft.capture` adds a captured variable, each only once.
* `Draft.resolve` finds a variable of an enclosing function and threads its capture through every
  function in between.
-/

namespace LoxMachine

/-- What a function is compiled for. -/
inductive FunctionKind where
  | script
  | function
  | method
  | initializer
  deriving DecidableEq, Repr

/-- A local variable. -/
structure Local where
  name : String
  /-- The depth of its scope, or nothing until its initializer has ended. -/
  depth : Option Nat
  /-- Whether some inner function captures it. -/
  captured : Bool := false
  deriving DecidableEq, Repr

namespace Local

/-- What is wrong with using a variable: it may be in its own initializer. -/
def useFaults (l : Local) : List Diagnosis :=
  if l.depth.isNone then [.readInOwnInitializer] else []

end Local

/-- A captured variable: a local variable of the enclosing function, or one that function captures
itself. -/
structure Capture where
  index : UInt8
  isLocal : Bool
  deriving DecidableEq, Repr

/-- Slots, captured variables and constants are named by one byte. -/
def byteCount : Nat := 256

/-- A function under construction. -/
structure Draft where
  kind : FunctionKind
  name : Option Handle
  arity : Nat := 0
  chunk : Chunk := .empty
  /-- The variables in scope, the last declared first. -/
  locals : List Local
  captures : Array Capture := #[]
  /-- How many variables the finished function captures. -/
  upvalueCount : Nat := 0
  /-- How many scopes are open. -/
  depth : Nat := 0

namespace Draft

/-- The name of slot `0`, which holds the receiver of a method and else the function called. -/
def receiver : FunctionKind → String
  | .method | .initializer => "this"
  | .script | .function => ""

/-- A function without code. -/
def start (kind : FunctionKind) (name : Option Handle) : Draft :=
  { kind, name, locals := [{ name := receiver kind, depth := some 0 }] }

/-- The finished function. -/
def function (d : Draft) : Function :=
  { name := d.name, arity := d.arity, upvalueCount := d.upvalueCount, chunk := d.chunk }

/-- The objects a draft refers to. -/
def handles (d : Draft) : List Handle :=
  d.name.toList ++ d.chunk.constants.toList.filterMap Value.handle?

/-! ## Local variables -/

/-- The innermost variable of a name, and its slot. -/
def findLocal (name : String) : List Local → Option (Nat × Local)
  | [] => none
  | l :: rest => if l.name = name then some (rest.length, l) else findLocal name rest

/-- Mark the innermost variable of a name as captured. -/
def markCaptured (name : String) : List Local → List Local
  | [] => []
  | l :: rest =>
    if l.name = name then { l with captured := true } :: rest else l :: markCaptured name rest

@[simp] theorem length_markCaptured (name : String) (locals : List Local) :
    (markCaptured name locals).length = locals.length := by
  induction locals with
  | nil => rfl
  | cons l rest ih => by_cases h : l.name = name <;> simp [markCaptured, h, ih]

/-- The innermost variable of a name has one of the slots. -/
theorem lt_length_of_findLocal {name : String} {locals : List Local} {slot : Nat} {l : Local}
    (h : findLocal name locals = some (slot, l)) : slot < locals.length := by
  induction locals with
  | nil => simp [findLocal] at h
  | cons l' rest ih =>
    simp only [findLocal] at h
    split at h
    · simp only [Option.some.injEq, Prod.mk.injEq] at h
      simp [← h.1]
    · exact Nat.lt_succ_of_lt (ih h)

/-- Whether a name is already declared in the innermost scope. -/
def declaresHere (d : Draft) (name : String) : Bool :=
  (d.locals.takeWhile fun l => l.depth.all (d.depth ≤ ·)).any (·.name == name)

/-! ## Captured variables -/

/-- The result of adding or finding a captured variable. -/
structure Captured where
  index : UInt8
  draft : Draft
  faults : List Diagnosis

/-- Replace the captured variables, and count them. -/
def withCaptures (d : Draft) (captures : Array Capture) : Draft :=
  { d with captures, upvalueCount := captures.size }

theorem withCaptures_eq {d : Draft} (h : d.upvalueCount = d.captures.size) :
    d.withCaptures d.captures = d := by
  rw [withCaptures, ← h]

/-- Add a captured variable, or find it if it is there. -/
def capture (d : Draft) (c : Capture) : Captured :=
  match d.captures.idxOf? c with
  | some i => ⟨UInt8.ofNat i, d, []⟩
  | none =>
    if d.captures.size = byteCount then ⟨0, d, [.tooManyCaptures]⟩
    else ⟨UInt8.ofNat d.captures.size, d.withCaptures (d.captures.push c), []⟩

/-- A variable found in an enclosing function: its index among the captured variables of the
innermost draft, the drafts with the captures added, and what was wrong on the way. -/
structure Resolution where
  index : UInt8
  draft : Draft
  enclosing : List Draft
  faults : List Diagnosis

/-- Find a variable of an enclosing function, the nearest first. -/
def resolve (name : String) : Draft → List Draft → Option Resolution
  | _, [] => none
  | d, e :: outer =>
    match findLocal name e.locals with
    | some (slot, l) =>
      let c := d.capture { index := UInt8.ofNat slot, isLocal := true }
      some ⟨c.index, c.draft, { e with locals := markCaptured name e.locals } :: outer,
        l.useFaults ++ c.faults⟩
    | none =>
      match resolve name e outer with
      | none => none
      | some r =>
        let c := d.capture { index := r.index, isLocal := false }
        some ⟨c.index, c.draft, r.draft :: r.enclosing, r.faults ++ c.faults⟩

end Draft

end LoxMachine
