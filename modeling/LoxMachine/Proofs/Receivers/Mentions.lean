import LoxMachine.Proofs.Symbolic.Charting

/-!
# Mentions of variables and accesses to them

The receiver of a method is in slot `0` of the method, and a class keeps its superclass in a slot of the function
around it. Which of them `this` and `super` stand for is said by the functions and classes around, and no name is
looked up for it.

* `Layer` is a function or a class around a point of a program. `Layer.receiver` and `Layer.superclass` are the places
  of the variables that `this` and `super` stand for there.
* `Expression.mentions`, …, `Declaration.mentions` list the mentions of variables in a tree and the places where a
  function is left, each with the layers around it. `Symbolic.accesses` lists the accesses to variables and the returns
  in some code and in the functions that it makes closures of.
* `Symbolic.Concluded`: those functions end with a return, as their kind tells.
* `Resolves`: what a mention is compiled to.
-/

namespace LoxMachine

open Symbolic

/-! ## What is around a point -/

/-- A function or a class around a point of a program. A superclass is in a slot of the function around the class. -/
inductive Layer where
  | function (kind : FunctionKind)
  | cls (superclass : Option Nat)

/-! The layers around a point are listed from the inside to the outside. The place of a variable is given by how many
functions are around the one that it belongs to, and by its slot there. -/

namespace Layer

/-- How many functions there are. -/
def functions : List Layer → Nat
  | [] => 0
  | function _ :: around => functions around + 1
  | cls _ :: around => functions around

/-- The kind of the innermost function. -/
def kind : List Layer → Option FunctionKind
  | [] => none
  | function kind :: _ => some kind
  | cls _ :: around => kind around

/-- The place of the receiver: the first slot of the innermost method. -/
def receiver : List Layer → Option (Nat × Nat)
  | [] => none
  | function kind :: around => if receives kind then some (functions around, 0) else receiver around
  | cls _ :: around => receiver around

/-- The place of the superclass of a class in the given functions. -/
def home (around : List Layer) (slot : Nat) : Nat × Nat := (functions around - 1, slot)

/-- The place of the superclass of the innermost class. -/
def superclass : List Layer → Option (Nat × Nat)
  | [] => none
  | function _ :: around => superclass around
  | cls slot :: around => slot.map (home around)

/-- The places of all superclasses. -/
def superclasses : List Layer → List (Nat × Nat)
  | [] => []
  | function _ :: around => superclasses around
  | cls slot :: around => (slot.map (home around)).toList ++ superclasses around

/-- Whether each class has a superclass. -/
def classes : List Layer → List Bool
  | [] => []
  | function _ :: around => classes around
  | cls slot :: around => slot.isSome :: classes around

end Layer

/-! ## Mentions -/

/-- What is said of a variable, or of the function, at a point of a program. -/
inductive Mention where
  | this
  | super
  | read (name : String)
  | write (name : String)
  /-- The function is left. -/
  | leave

/-- Some mentions at one point. -/
def Mention.at (around : List Layer) (mentions : List Mention) : List (Mention × List Layer) :=
  mentions.map (·, around)

/-- What is mentioned where a function is left without a value. -/
def Mention.leaving : FunctionKind → List Mention
  | .initializer => [.this, .leave]
  | _ => [.leave]

namespace Expression

mutual

/-- The mentions in an expression, in the order of the text. A variable is written after its value is known. A method
of the superclass is called on the receiver. -/
def mentions : Expression → List Mention
  | nil | bool _ | number _ | string _ => []
  | read name => [.read name]
  | this => [.this]
  | grouping e | unary _ e | property e _ => e.mentions
  | superProperty _ => [.this, .super]
  | superInvoke _ arguments => .this :: (listMentions arguments ++ [.super])
  | call callee arguments => callee.mentions ++ listMentions arguments
  | invoke target _ arguments => target.mentions ++ listMentions arguments
  | binary _ left right | and left right | or left right => left.mentions ++ right.mentions
  | assign name value => value.mentions ++ [.write name]
  | setProperty target _ value => target.mentions ++ value.mentions

def listMentions : List Expression → List Mention
  | [] => []
  | e :: more => e.mentions ++ listMentions more

end

end Expression

def Initializer.mentions : Initializer → List Mention
  | none => []
  | var _ value => value.elim [] (·.mentions)
  | expression e => e.mentions

/-- The mentions in a class declaration up to the methods: the superclass and the class for the inheritance, and the
class for its methods. -/
def classMentions (name : String) (superclass : Option String) : List Mention :=
  superclass.elim [] (fun s => [.read s, .read name]) ++ [.read name]

/-- The layer of a class. -/
def Layer.ofClass (name : String) (superclass : Option String) (σ : Setting) : Layer :=
  .cls (superclass.map fun _ => (σ.define name).here.locals.length)

mutual

/-- The mentions in a statement. -/
def Statement.mentions : Statement → List Layer → Setting → List (Mention × List Layer)
  | .expression e, around, _ | .print e, around, _ => Mention.at around e.mentions
  | .block body, around, σ => Declaration.listMentions body around σ.enter
  | .ifThen condition body, around, σ | .whileLoop condition body, around, σ =>
    Mention.at around condition.mentions ++ body.mentions around σ
  | .ifThenElse condition body otherwise, around, σ =>
    Mention.at around condition.mentions ++ (body.mentions around σ ++ otherwise.mentions around σ)
  | .forLoop init condition increment body, around, σ =>
    Mention.at around (init.mentions ++ (condition.elim [] (·.mentions) ++ increment.elim [] (·.mentions))) ++
      body.mentions around (init.after σ.enter)
  | .ret none, around, σ => Mention.at around (Mention.leaving σ.here.kind)
  | .ret (some e), around, _ => Mention.at around (e.mentions ++ [.leave])

def Declaration.mentions : Declaration → List Layer → Setting → List (Mention × List Layer)
  | .statement s, around, σ => s.mentions around σ
  | .var _ value, around, _ => Mention.at around (value.elim [] (·.mentions))
  | .function f, around, σ => f.mentions .function around (σ.define f.name)
  | .cls name superclass methods, around, σ =>
    Mention.at around (classMentions name superclass) ++
      Routine.listMentions methods (.ofClass name superclass σ :: around) (methodsSetting name superclass σ)

def Routine.mentions : Routine → FunctionKind → List Layer → Setting → List (Mention × List Layer)
  | .mk _ parameters body, kind, around, σ =>
    Declaration.listMentions body (.function kind :: around) (parameters.foldl Setting.define (σ.begin kind)) ++
      Mention.at (.function kind :: around) (Mention.leaving kind)

def Declaration.listMentions : List Declaration → List Layer → Setting → List (Mention × List Layer)
  | [], _, _ => []
  | d :: more, around, σ => d.mentions around σ ++ Declaration.listMentions more around (d.after σ)

def Routine.listMentions : List Routine → List Layer → Setting → List (Mention × List Layer)
  | [], _, _ => []
  | .mk name parameters body :: more, around, σ =>
    (Routine.mk name parameters body).mentions (methodKind name) around σ ++ Routine.listMentions more around σ

end

/-- The mentions in a whole program. -/
def programMentions (program : List Declaration) : List (Mention × List Layer) :=
  Declaration.listMentions program [.function .script] .start ++
    Mention.at [.function .script] (Mention.leaving .script)

/-! ## Accesses -/

namespace Symbolic

/-- The place of a local variable, seen from a function that has `level` functions around it. -/
def Variable.place (level : Nat) : Variable → Option (Nat × Nat)
  | own slot _ => some (level, slot)
  | outer place _ => some place
  | global _ => none

/-- The operands are those of the operation, and variables are accessed by `get` and `set` only. -/
def Instruction.isRegular : Instruction → Bool
  | op o => o.operands = .none
  | named o _ => o.operands = .constant && o ≠ .getGlobal && o ≠ .setGlobal
  | invoke o _ _ => o.operands = .invocation
  | jump o _ => o.operands = .forward || o.operands = .backward
  | _ => true

/-- An access to a variable, which has a place unless it is global, or a return. -/
inductive Access where
  | get (place : Option (Nat × Nat))
  | set (place : Option (Nat × Nat))
  /-- A return, with the instruction right before it. -/
  | ret (before : Option Instruction)
  /-- An instruction that is not regular. -/
  | stray (i : Instruction)

mutual

/-- The accesses of an instruction, and of the function that it makes a closure of. There are `level` functions
around. -/
def Instruction.accesses : Instruction → (level : Nat) → (before : Option Instruction) → List Access
  | .get v, level, _ => [.get (v.place level)]
  | .set v, level, _ => [.set (v.place level)]
  | .closure _ _ _ _ body, level, _ => accesses body (level + 1) none
  | .op o, _, before =>
    if o = .ret then [.ret before] else if (Instruction.op o).isRegular then [] else [.stray (.op o)]
  | i, _, _ => if i.isRegular then [] else [.stray i]

/-- The accesses of some code that stands after an instruction. -/
def accesses : List Instruction → (level : Nat) → (before : Option Instruction) → List Access
  | [], _, _ => []
  | i :: code, level, before => i.accesses level before ++ accesses code level (some i)

end

/-- The functions in some code end as those of their kind do. -/
inductive Concluded : Code → Prop
  | intro {code : Code}
    (ends : ∀ kind name arity captured body, Instruction.closure kind name arity captured body ∈ code →
      returning kind <:+ body)
    (inner : ∀ kind name arity captured body, Instruction.closure kind name arity captured body ∈ code →
      Concluded body) : Concluded code

end Symbolic

/-- **What a mention is compiled to.** The receiver and the superclass are local variables at the places that the
layers tell. A variable that is written is neither the first slot of a function nor a superclass. In an initializer,
the receiver is got right before a return. -/
inductive Resolves : Mention × List Layer → Access → Prop
  | this {around : List Layer} {place : Nat × Nat} (receiver : Layer.receiver around = some place) :
    Resolves (.this, around) (.get (some place))
  | super {around : List Layer} {place : Nat × Nat} (superclass : Layer.superclass around = some place) :
    Resolves (.super, around) (.get (some place))
  | read (name : String) (around : List Layer) (place : Option (Nat × Nat)) :
    Resolves (.read name, around) (.get place)
  | write (name : String) {around : List Layer} {place : Option (Nat × Nat)}
    (other : ∀ p, place = some p → p.2 ≠ 0 ∧ p ∉ Layer.superclasses around) :
    Resolves (.write name, around) (.set place)
  | leave {around : List Layer} {before : Option Symbolic.Instruction}
    (receiver : Layer.kind around = some .initializer → before = some (.get (.own 0 "this"))) :
    Resolves (.leave, around) (.ret before)

end LoxMachine
