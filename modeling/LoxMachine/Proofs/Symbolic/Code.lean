import LoxMachine.Proofs.Grammar.Origins
import LoxMachine.Proofs.Symbolic.Instructions

/-!
# The code of trees

The code that a tree is compiled to, as a function of the tree and of the point where it stands.

* `Receivers` are the variables that `this` and `super` stand for. They follow the methods and classes
  around a point, and no name is looked up for them.
* `Expression.code`, `Statement.code`, `Declaration.code` and `Routine.code` are the code of trees, and
  `script` is the code of a whole program. Jumps know how much they jump over from the start.
* `Statement.uses` and `Declaration.uses` are the variables that functions in a tree use of functions around
  them, in the order in which they are met.
-/

namespace LoxMachine

open Symbolic

/-! ## Variables -/

/-- The variable that a name stands for. -/
def Setting.variable (σ : Setting) (name : String) : Variable :=
  match lookup name σ.functions with
  | none => .global name
  | some (place, _) => if place.1 < σ.outer.length then .outer place name else .own place.2 name

/-- The variables that `this` and `super` stand for. -/
structure Receivers where
  this : Variable
  super : Variable

namespace Symbolic

/-- A variable as an inner function refers to it. The function that it is seen from has `level` functions
around it. -/
def Variable.around (level : Nat) : Variable → Variable
  | own slot name => outer (level, slot) name
  | outer place name => outer place name
  | global name => global name

/-- A method has its receiver in slot `0`. -/
def receives : FunctionKind → Bool
  | .method | .initializer => true
  | .script | .function => false

end Symbolic

namespace Receivers

/-- Outside classes, `this` and `super` stand for nothing. -/
def none : Receivers := ⟨.global "this", .global "super"⟩

/-- In a function that has `level + 1` functions around it. -/
def enter (r : Receivers) (kind : FunctionKind) (level : Nat) : Receivers where
  this := if receives kind then .own 0 "this" else r.this.around level
  super := r.super.around level

/-- In a class. A superclass is in the given slot. -/
def within (r : Receivers) (superclass : Option String) (slot : Nat) : Receivers :=
  match superclass with
  | .none => r
  | some _ => { r with super := .own slot "super" }

end Receivers

/-! ## Shapes of code -/

namespace Symbolic

/-- A jump over code. -/
def across (op : Opcode) (code : Code) : Code := .jump op (extent code) :: code

/-- The first code is executed if the value on top counts as true, and else the second one. -/
def branch (p q : Code) : Code :=
  .jump .jumpIfFalse (extent p + 3) :: (p ++ across .jump q)

/-- The increment of a loop, which stands before the body. The condition with its jump has `head`
bytes. -/
def increment (head : Nat) : Option (Code) → Code
  | none => []
  | some p => across .jump (p ++ [.op .pop, .jump .loop (head + 3 + extent p + 1 + 3)])

/-- How many bytes go from the start of the increment to the body, or from the condition if there is no
increment. -/
def turn (head : Nat) : Option (Code) → Nat
  | none => head
  | some p => extent p + 1 + 3

/-- One time through a loop, after its condition. -/
def lap (head : Nat) (next : Option (Code)) (body : Code) : Code :=
  increment head next ++ (body ++ [.jump .loop (turn head next + extent body + 3)])

/-- A loop. -/
def loop (condition next : Option (Code)) (body : Code) : Code :=
  match condition with
  | none => lap 0 next body
  | some p => p ++ (across .jumpIfFalse (.op .pop :: lap (extent p + 4) next body) ++ [.op .pop])

/-- The end of a function without a value: an initializer returns its receiver. -/
def returning (kind : FunctionKind) : Code :=
  [if kind = .initializer then .get (.own 0 "this") else .op .pushNil, .op .ret]

end Symbolic

namespace Setting

/-- The declaration of a variable whose value is on the stack. -/
def defining (σ : Setting) (name : String) : Code :=
  if σ.here.depth = 0 then [.named .defineGlobal name] else []

/-- The variables that remain when a scope in which `uses` were met is left. -/
def remaining (σ : Setting) (uses : List (Nat × Nat)) : List (Nat × Nat) :=
  uses.filter fun p => p.1 < σ.outer.length ∨ p.2 < σ.here.locals.length

/-- The end of a scope. Variables that were captured move off the stack. -/
def leave (σ inner : Setting) (uses : List (Nat × Nat)) : Code :=
  (List.range' σ.here.locals.length (inner.here.locals.length - σ.here.locals.length)).reverse.map
    fun slot => .op (if uses.contains (σ.outer.length, slot) then .closeUpvalue else .pop)

end Setting

/-! ## Expressions -/

namespace Expression

mutual

/-- The code of an expression: operands from left to right, then the operation. -/
def code : Expression → Setting → Receivers → Code
  | nil, _, _ => [.op .pushNil]
  | bool value, _, _ => [.op (if value then .pushTrue else .pushFalse)]
  | number literal, _, _ => (Number.ofLiteral? literal).toList.map .number
  | string literal, _, _ => [.string (Compile.unquoted literal)]
  | read name, σ, _ => [.get (σ.variable name)]
  | this, _, r => [.get r.this]
  | grouping e, σ, r => e.code σ r
  | superProperty name, _, r => [.get r.this, .get r.super, .named .getSuper name]
  | superInvoke name arguments, σ, r =>
    .get r.this ::
      (listCode arguments σ r ++ [.get r.super, .invoke .superInvoke name arguments.length])
  | call callee arguments, σ, r => callee.code σ r ++ (listCode arguments σ r ++ [.call arguments.length])
  | property target name, σ, r => target.code σ r ++ [.named .getProperty name]
  | invoke target name arguments, σ, r =>
    target.code σ r ++ (listCode arguments σ r ++ [.invoke .invoke name arguments.length])
  | unary operator e, σ, r => e.code σ r ++ [.op operator.opcode]
  | binary operator left right, σ, r =>
    left.code σ r ++ (right.code σ r ++ operator.opcodes.map .op)
  | and left right, σ, r => left.code σ r ++ across .jumpIfFalse (.op .pop :: right.code σ r)
  | or left right, σ, r => left.code σ r ++ branch [] (.op .pop :: right.code σ r)
  | assign name value, σ, r => value.code σ r ++ [.set (σ.variable name)]
  | setProperty target name value, σ, r =>
    target.code σ r ++ (value.code σ r ++ [.named .setProperty name])

def listCode : List Expression → Setting → Receivers → Code
  | [], _, _ => []
  | e :: more, σ, r => e.code σ r ++ listCode more σ r

end

end Expression

/-! ## Parts of statements -/

/-- The code of the value that a variable starts with. -/
def valueCode (value : Option Expression) (σ : Setting) (r : Receivers) : Code :=
  value.elim [.op .pushNil] (·.code σ r)

/-- The code of a variable declaration. -/
def variableCode (name : String) (value : Option Expression) (σ : Setting) (r : Receivers) :
    Code :=
  valueCode value (σ.initializing name) r ++ σ.defining name

namespace Initializer

def code : Initializer → Setting → Receivers → Code
  | none, _, _ => []
  | var name value, σ, r => variableCode name value σ r
  | expression e, σ, r => e.code σ r ++ [.op .pop]

def uses : Initializer → Setting → List (Nat × Nat)
  | none, _ => []
  | var name value, σ => value.elim [] fun e => (e.footprint (σ.initializing name)).captured
  | expression e, σ => (e.footprint σ).captured

end Initializer

/-- A class up to its methods. The class itself is on the stack then. -/
def classCode (name : String) (superclass : Option String) (σ : Setting) : Code :=
  let inner := methodsSetting name superclass σ
  .named .cls name :: (σ.defining name ++
    (superclass.elim [] fun s =>
      [.get ((σ.define name).variable s), .get (inner.variable name), .op .inherit]) ++
    [.get (inner.variable name)])

/-- The variables of functions around that a class up to its methods uses. -/
def classUses (name : String) (superclass : Option String) (σ : Setting) : List (Nat × Nat) :=
  let inner := methodsSetting name superclass σ
  superclass.elim [] (fun s => ((σ.define name).access s).captured ++ (inner.access name).captured) ++
    (inner.access name).captured

/-! ## Statements and declarations -/

mutual

/-- The variables of functions around that a statement uses. -/
def Statement.uses : Statement → Setting → List (Nat × Nat)
  | .expression e, σ | .print e, σ => (e.footprint σ).captured
  | .block body, σ => σ.remaining (Declaration.listUses body σ.enter)
  | .ifThen condition body, σ => (condition.footprint σ).captured ++ body.uses σ
  | .ifThenElse condition body otherwise, σ =>
    (condition.footprint σ).captured ++ (body.uses σ ++ otherwise.uses σ)
  | .whileLoop condition body, σ => (condition.footprint σ).captured ++ body.uses σ
  | .forLoop init condition increment body, σ =>
    let inner := init.after σ.enter
    σ.remaining (init.uses σ.enter ++ ((Expression.optionFootprint condition inner).captured ++
      ((Expression.optionFootprint increment inner).captured ++ body.uses inner)))
  | .ret value, σ => (Expression.optionFootprint value σ).captured

def Declaration.uses : Declaration → Setting → List (Nat × Nat)
  | .statement s, σ => s.uses σ
  | .var name value, σ => value.elim [] fun e => (e.footprint (σ.initializing name)).captured
  | .function f, σ => f.uses .function (σ.define f.name)
  | .cls name superclass methods, σ =>
    let uses := classUses name superclass σ ++ Routine.listUses methods (methodsSetting name superclass σ)
    superclass.elim uses fun _ => (σ.define name).remaining uses

/-- The variables of functions around that a function uses. -/
def Routine.uses : Routine → FunctionKind → Setting → List (Nat × Nat)
  | .mk _ parameters body, kind, σ =>
    (Declaration.listUses body (parameters.foldl Setting.define (σ.begin kind))).filter
      (·.1 < σ.outer.length + 1)

def Declaration.listUses : List Declaration → Setting → List (Nat × Nat)
  | [], _ => []
  | d :: more, σ => d.uses σ ++ Declaration.listUses more (d.after σ)

def Routine.listUses : List Routine → Setting → List (Nat × Nat)
  | [], _ => []
  | .mk name parameters body :: more, σ =>
    (Routine.mk name parameters body).uses (methodKind name) σ ++ Routine.listUses more σ

end

mutual

/-- The code of a statement. -/
def Statement.code : Statement → Setting → Receivers → Code
  | .expression e, σ, r => e.code σ r ++ [.op .pop]
  | .print e, σ, r => e.code σ r ++ [.op .print]
  | .block body, σ, r =>
    Declaration.listCode body σ.enter r ++
      σ.leave (Declaration.afterList body σ.enter) (Declaration.listUses body σ.enter)
  | .ifThen condition body, σ, r =>
    condition.code σ r ++ branch (.op .pop :: body.code σ r) [.op .pop]
  | .ifThenElse condition body otherwise, σ, r =>
    condition.code σ r ++ branch (.op .pop :: body.code σ r) (.op .pop :: otherwise.code σ r)
  | .whileLoop condition body, σ, r => loop (some (condition.code σ r)) none (body.code σ r)
  | .forLoop init condition increment body, σ, r =>
    let inner := init.after σ.enter
    init.code σ.enter r ++
      (loop (condition.map (·.code inner r)) (increment.map (·.code inner r)) (body.code inner r) ++
        σ.leave inner (init.uses σ.enter ++ ((Expression.optionFootprint condition inner).captured ++
          ((Expression.optionFootprint increment inner).captured ++ body.uses inner))))
  | .ret none, σ, _ => returning σ.here.kind
  | .ret (some e), σ, r => e.code σ r ++ [.op .ret]

/-- The code of a declaration. -/
def Declaration.code : Declaration → Setting → Receivers → Code
  | .statement s, σ, r => s.code σ r
  | .var name value, σ, r => variableCode name value σ r
  | .function f, σ, r => f.code .function (σ.define f.name) r :: σ.defining f.name
  | .cls name superclass methods, σ, r =>
    let inner := methodsSetting name superclass σ
    classCode name superclass σ ++
      (Routine.listCode methods inner (r.within superclass (σ.define name).here.locals.length) ++
        (.op .pop :: superclass.elim [] fun _ => (σ.define name).leave inner
          (classUses name superclass σ ++ Routine.listUses methods inner)))

/-- The instruction that makes a closure of a function. -/
def Routine.code : Routine → FunctionKind → Setting → Receivers → Symbolic.Instruction
  | .mk name parameters body, kind, σ, r =>
    .closure kind name parameters.length
      (gather [] ((Declaration.listUses body (parameters.foldl Setting.define (σ.begin kind))).filter
        (·.1 < σ.outer.length + 1)))
      (Declaration.listCode body (parameters.foldl Setting.define (σ.begin kind))
        (r.enter kind σ.outer.length) ++ returning kind)

def Declaration.listCode : List Declaration → Setting → Receivers → Code
  | [], _, _ => []
  | d :: more, σ, r => d.code σ r ++ Declaration.listCode more (d.after σ) r

def Routine.listCode : List Routine → Setting → Receivers → Code
  | [], _, _ => []
  | .mk name parameters body :: more, σ, r =>
    (Routine.mk name parameters body).code (methodKind name) σ r ::
      .named .method name :: Routine.listCode more σ r

end

/-- The code of a whole program. -/
def Symbolic.script (program : List Declaration) : Code :=
  Declaration.listCode program .start .none ++ returning .script

end LoxMachine
