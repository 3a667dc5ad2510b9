import Mathlib.Algebra.Group.Defs
import Mathlib.Data.Finset.Card
import LoxMachine.Proofs.Grammar.Directed

/-!
# The static rules

The grammar says which texts are programs. This module says which programs are legal: the rules about
variables, classes and `return`, and the limits that the encoding of instructions sets.

* `Setting` is where a piece of a program stands: the functions around it with their variables in scope,
  and the classes around it.
* `Footprint` is what a piece of a program takes up in the function it belongs to: code, constants, and
  variables of enclosing functions. `Expression.footprint`, …, `Declaration.footprint` count it.
* `Expression.Legal`, `Statement.Legal`, `Declaration.Legal` and `Routine.Legal` are the rules.
* `Legal` says that a whole program keeps them.
-/

namespace LoxMachine

/-! ## What code takes up -/

/-- What a piece of code takes up in the function it belongs to. -/
structure Footprint where
  /-- The bytes of code. -/
  size : Nat := 0
  constants : Nat := 0
  /-- The uses of variables of enclosing functions. Each variable is given by how many functions are
  around the one it belongs to, and by its slot there. -/
  captured : List (Nat × Nat) := []

namespace Footprint

instance : Add Footprint :=
  ⟨fun f g => ⟨f.size + g.size, f.constants + g.constants, f.captured ++ g.captured⟩⟩

instance : Zero Footprint := ⟨{}⟩

@[simp] theorem size_add (f g : Footprint) : (f + g).size = f.size + g.size := rfl

@[simp] theorem constants_add (f g : Footprint) : (f + g).constants = f.constants + g.constants := rfl

@[simp] theorem captured_add (f g : Footprint) : (f + g).captured = f.captured ++ g.captured := rfl

@[simp] theorem size_zero : (0 : Footprint).size = 0 := rfl

@[simp] theorem constants_zero : (0 : Footprint).constants = 0 := rfl

@[simp] theorem captured_zero : (0 : Footprint).captured = [] := rfl

@[ext] theorem ext {f g : Footprint} (hsize : f.size = g.size) (hconstants : f.constants = g.constants)
    (hcaptured : f.captured = g.captured) : f = g := by
  cases f
  cases g
  simp_all

/-- Code without constants. -/
def bytes (size : Nat) : Footprint := { size }

/-- An instruction with `size` bytes of which one names a constant. -/
def constant (size : Nat) : Footprint := { size, constants := 1 }

@[simp] theorem size_bytes (n : Nat) : (bytes n).size = n := rfl

@[simp] theorem constants_bytes (n : Nat) : (bytes n).constants = 0 := rfl

@[simp] theorem captured_bytes (n : Nat) : (bytes n).captured = [] := rfl

@[simp] theorem size_constant (n : Nat) : (constant n).size = n := rfl

@[simp] theorem constants_constant (n : Nat) : (constant n).constants = 1 := rfl

@[simp] theorem captured_constant (n : Nat) : (constant n).captured = [] := rfl

/-- How many variables of enclosing functions are used. -/
def captures (f : Footprint) : Nat := f.captured.toFinset.card

end Footprint

/-! ## Where a tree stands -/

/-- A function around a point of a program. -/
structure FunctionScope where
  kind : FunctionKind
  /-- The variables in scope there, the last declared first. The last one of them has slot `0`. -/
  locals : List Local
  /-- How many scopes are open. -/
  depth : Nat

/-- A point of a program. -/
structure Setting where
  here : FunctionScope
  /-- The functions around the innermost one. -/
  outer : List FunctionScope := []
  /-- The classes around the point, the innermost first: whether each has a superclass. -/
  classes : List Bool := []

/-- The innermost variable of a name, and where it belongs. -/
def lookup (name : String) : List FunctionScope → Option ((Nat × Nat) × Local)
  | [] => none
  | l :: outer =>
    match Draft.findLocal name l.locals with
    | some (slot, v) => some ((outer.length, slot), v)
    | none => lookup name outer

namespace FunctionScope

/-- The variable of a name is declared in the innermost scope. -/
def Declares (l : FunctionScope) (name : String) : Prop :=
  ∃ v ∈ l.locals, v.name = name ∧ v.depth = some l.depth

/-- With one more variable. Until its initializer has ended it has no depth. -/
def push (l : FunctionScope) (name : String) (depth : Option Nat) : FunctionScope :=
  { l with locals := { name, depth } :: l.locals }

end FunctionScope

namespace Setting

/-- A whole program stands in the outermost scope of the script. -/
def start : Setting :=
  { here := { kind := .script, locals := [{ name := "", depth := some 0 }], depth := 0 } }

/-- The functions around a point, the innermost first. -/
def functions (σ : Setting) : List FunctionScope := σ.here :: σ.outer

/-- A variable can be used outside its own initializer. -/
def Usable (σ : Setting) (name : String) : Prop :=
  ∀ place v, lookup name σ.functions = some (place, v) → v.depth ≠ none

/-- A use of a variable. A global variable is named by a constant. -/
def access (σ : Setting) (name : String) : Footprint :=
  match lookup name σ.functions with
  | none => .constant 2
  | some (place, _) => { size := 2, captured := if place.1 < σ.outer.length then [place] else [] }

/-- Where there are local variables, a name is declared once in a scope, and there are at most as many
variables as slots. -/
def Declarable (σ : Setting) (name : String) : Prop :=
  0 < σ.here.depth → ¬σ.here.Declares name ∧ σ.here.locals.length < byteCount

/-- In the initializer of a variable. -/
def initializing (σ : Setting) (name : String) : Setting :=
  if σ.here.depth = 0 then σ else { σ with here := σ.here.push name none }

/-- After the declaration of a variable. -/
def define (σ : Setting) (name : String) : Setting :=
  if σ.here.depth = 0 then σ else { σ with here := σ.here.push name (some σ.here.depth) }

/-- The declaration of a variable whose value is there: a global one is named by a constant. -/
def definition (σ : Setting) : Footprint := if σ.here.depth = 0 then .constant 2 else 0

/-- In a new scope. -/
def enter (σ : Setting) : Setting := { σ with here := { σ.here with depth := σ.here.depth + 1 } }

/-- In a function, before its parameters. -/
def begin (σ : Setting) (kind : FunctionKind) : Setting :=
  { σ with
    here := { kind, locals := [{ name := Draft.receiver kind, depth := some 0 }], depth := 1 }
    outer := σ.functions }

/-- In a class. -/
def within (σ : Setting) (hasSuperclass : Bool) : Setting :=
  { σ with classes := hasSuperclass :: σ.classes }

/-- How many variables a scope has declared. Leaving it takes a byte for each. -/
def leaving (σ inner : Setting) : Footprint :=
  .bytes (inner.here.locals.length - σ.here.locals.length)

end Setting

/-- How far jumps may go. -/
def Near (distance : Nat) : Prop := distance ≤ Compile.maxJump

/-! ## Expressions -/

namespace Expression

mutual

/-- What an expression takes up. -/
def footprint : Expression → Setting → Footprint
  | nil, _ | bool _, _ => .bytes 1
  | number _, _ | string _, _ => .constant 2
  | read name, σ => σ.access name
  | this, σ => σ.access "this"
  | grouping e, σ => e.footprint σ
  | superProperty _, σ => .constant 2 + σ.access "this" + σ.access "super"
  | superInvoke _ arguments, σ =>
    .constant 3 + σ.access "this" + listFootprint arguments σ + σ.access "super"
  | call callee arguments, σ => callee.footprint σ + listFootprint arguments σ + .bytes 2
  | property target _, σ => target.footprint σ + .constant 2
  | invoke target _ arguments, σ => target.footprint σ + listFootprint arguments σ + .constant 3
  | unary _ e, σ => e.footprint σ + .bytes 1
  | binary operator left right, σ =>
    left.footprint σ + right.footprint σ + .bytes operator.opcodes.length
  | and left right, σ => left.footprint σ + .bytes 4 + right.footprint σ
  | or left right, σ => left.footprint σ + .bytes 7 + right.footprint σ
  | assign name value, σ => σ.access name + value.footprint σ
  | setProperty target _ value, σ => target.footprint σ + value.footprint σ + .constant 2

def listFootprint : List Expression → Setting → Footprint
  | [], _ => 0
  | e :: more, σ => e.footprint σ + listFootprint more σ

end

mutual

/-- The rules for expressions: a variable is not used in its own initializer, `this` is used in a class
only, and `super` in a class with a superclass only. There are at most as many arguments as a byte can
count, and `and` and `or` jump over their right operands. -/
def Legal : Expression → Setting → Prop
  | nil, _ | bool _, _ | number _, _ | string _, _ => True
  | read name, σ => σ.Usable name
  | this, σ => σ.classes ≠ []
  | grouping e, σ => e.Legal σ
  | superProperty _, σ => σ.classes.head? = some true
  | superInvoke _ arguments, σ =>
    σ.classes.head? = some true ∧ arguments.length ≤ Compile.maxArity ∧ ListLegal arguments σ
  | call callee arguments, σ =>
    callee.Legal σ ∧ arguments.length ≤ Compile.maxArity ∧ ListLegal arguments σ
  | property target _, σ => target.Legal σ
  | invoke target _ arguments, σ =>
    target.Legal σ ∧ arguments.length ≤ Compile.maxArity ∧ ListLegal arguments σ
  | unary _ e, σ => e.Legal σ
  | binary _ left right, σ => left.Legal σ ∧ right.Legal σ
  | and left right, σ | or left right, σ =>
    left.Legal σ ∧ right.Legal σ ∧ Near (1 + (right.footprint σ).size)
  | assign name value, σ => σ.Usable name ∧ value.Legal σ
  | setProperty target _ value, σ => target.Legal σ ∧ value.Legal σ

def ListLegal : List Expression → Setting → Prop
  | [], _ => True
  | e :: more, σ => e.Legal σ ∧ ListLegal more σ

end

/-- What an expression takes up that may be missing. -/
def optionFootprint : Option Expression → Setting → Footprint
  | none, _ => 0
  | some e, σ => e.footprint σ

def OptionLegal : Option Expression → Setting → Prop
  | none, _ => True
  | some e, σ => e.Legal σ

end Expression

/-! ## Parts of statements -/

/-- What a variable declaration takes up. Without a value the variable is `nil`. -/
def variableFootprint (name : String) (value : Option Expression) (σ : Setting) : Footprint :=
  value.elim (.bytes 1) (·.footprint (σ.initializing name)) + σ.definition

/-- The rules for variable declarations. -/
def VariableLegal (name : String) (value : Option Expression) (σ : Setting) : Prop :=
  σ.Declarable name ∧ Expression.OptionLegal value (σ.initializing name)

namespace Initializer

def footprint : Initializer → Setting → Footprint
  | none, _ => 0
  | var name value, σ => variableFootprint name value σ
  | expression e, σ => e.footprint σ + .bytes 1

def Legal : Initializer → Setting → Prop
  | none, _ => True
  | var name value, σ => VariableLegal name value σ
  | expression e, σ => e.Legal σ

/-- The point after the initializer of a `for` loop. -/
def after : Initializer → Setting → Setting
  | var name _, σ => σ.define name
  | _, σ => σ

end Initializer

/-- The condition of a `for` loop, with the jump that leaves the loop. -/
def conditionFootprint : Option Expression → Setting → Footprint
  | none, _ => 0
  | some e, σ => e.footprint σ + .bytes 4

/-- The increment of a `for` loop, with the jump around it and the jump back. -/
def incrementFootprint : Option Expression → Setting → Footprint
  | none, _ => 0
  | some e, σ => .bytes 3 + e.footprint σ + .bytes 4

/-- The jumps of a `for` loop: around the increment and back to the condition, from the end of the body
back to the increment or else to the condition, and out of the loop. -/
def ForNear (condition increment : Option Expression) (body : Nat) (σ : Setting) : Prop :=
  (∀ e, increment = some e → Near ((e.footprint σ).size + 4) ∧
    Near ((conditionFootprint condition σ).size + (incrementFootprint increment σ).size)) ∧
  Near ((increment.elim (conditionFootprint condition σ).size (fun e => (e.footprint σ).size + 4)) +
    body + 3) ∧
  (condition ≠ none → Near (1 + (incrementFootprint increment σ).size + body + 3))

/-- A name declared by each of some parameters. -/
def ParametersLegal : List String → Setting → Prop
  | [], _ => True
  | p :: more, σ => σ.Declarable p ∧ ParametersLegal more (σ.define p)

/-- The point after a declaration. -/
def Declaration.after : Declaration → Setting → Setting
  | .statement _, σ => σ
  | .var name _, σ => σ.define name
  | .function f, σ => σ.define f.name
  | .cls name _ _, σ => σ.define name

def Declaration.afterList (body : List Declaration) (σ : Setting) : Setting :=
  body.foldl (fun σ d => d.after σ) σ

/-- The point where the methods of a class stand. A superclass is kept in a variable of a scope around
them. -/
def methodsSetting (name : String) (superclass : Option String) (σ : Setting) : Setting :=
  match superclass with
  | none => (σ.define name).within false
  | some _ => ((σ.define name).enter.define "super").within true

/-- What a class takes up besides its methods: the class and its name, then the superclass and the class
itself for the inheritance, and last the class itself for its methods. -/
def classFootprint (name : String) (superclass : Option String) (σ : Setting) : Footprint :=
  .constant (if σ.here.depth = 0 then 4 else 2) +
    superclass.elim 0 (fun s => (σ.define name).access s +
      (methodsSetting name superclass σ).access name + .bytes 1) +
    (methodsSetting name superclass σ).access name

/-- The rules for the superclass of a class: it is not the class itself, it can be used, and there is a
slot for it. -/
def SuperclassLegal (name : String) (superclass : Option String) (σ : Setting) : Prop :=
  ∀ s, superclass = some s → name ≠ s ∧ (σ.define name).Usable s ∧
    (σ.define name).here.locals.length < byteCount

/-! ## Statements and declarations -/

mutual

/-- What a statement takes up. -/
def Statement.footprint : Statement → Setting → Footprint
  | .expression e, σ | .print e, σ => e.footprint σ + .bytes 1
  | .block body, σ =>
    Declaration.listFootprint body σ.enter + σ.leaving (Declaration.afterList body σ.enter)
  | .ifThen condition body, σ => condition.footprint σ + .bytes 4 + body.footprint σ + .bytes 4
  | .ifThenElse condition body otherwise, σ =>
    condition.footprint σ + .bytes 4 + body.footprint σ + .bytes 4 + otherwise.footprint σ
  | .whileLoop condition body, σ => condition.footprint σ + .bytes 4 + body.footprint σ + .bytes 4
  | .forLoop init condition increment body, σ =>
    init.footprint σ.enter + conditionFootprint condition (init.after σ.enter) +
      incrementFootprint increment (init.after σ.enter) + body.footprint (init.after σ.enter) +
      .bytes (if condition = none then 3 else 4) + σ.leaving (init.after σ.enter)
  | .ret none, σ => .bytes (if σ.here.kind = .initializer then 3 else 2)
  | .ret (some e), σ => e.footprint σ + .bytes 1

/-- What a declaration takes up. -/
def Declaration.footprint : Declaration → Setting → Footprint
  | .statement s, σ => s.footprint σ
  | .var name value, σ => variableFootprint name value σ
  | .function f, σ => f.footprint .function (σ.define f.name) + σ.definition
  | .cls name superclass methods, σ =>
    classFootprint name superclass σ + Routine.listFootprint methods (methodsSetting name superclass σ) +
      .bytes (if superclass = none then 1 else 2)

/-- What a function takes up in the function around it: a constant, and an instruction that lists the
variables to capture. -/
def Routine.footprint : Routine → FunctionKind → Setting → Footprint
  | .mk _ parameters body, kind, σ =>
    let inner := Declaration.listFootprint body (parameters.foldl Setting.define (σ.begin kind))
    { size := 2 + 2 * inner.captures
      constants := 1
      captured := inner.captured.filter (·.1 < σ.outer.length) }

def Declaration.listFootprint : List Declaration → Setting → Footprint
  | [], _ => 0
  | d :: more, σ => d.footprint σ + Declaration.listFootprint more (d.after σ)

def Routine.listFootprint : List Routine → Setting → Footprint
  | [], _ => 0
  | .mk name parameters body :: more, σ =>
    (Routine.mk name parameters body).footprint (methodKind name) σ + .constant 2 +
      Routine.listFootprint more σ

end

mutual

/-- The rules for statements: a `return` is inside a function, and in an initializer it has no value.
The jumps over bodies and back are not too long. -/
def Statement.Legal : Statement → Setting → Prop
  | .expression e, σ | .print e, σ => e.Legal σ
  | .block body, σ => Declaration.ListLegal body σ.enter
  | .ifThen condition body, σ =>
    condition.Legal σ ∧ body.Legal σ ∧ Near ((body.footprint σ).size + 4)
  | .ifThenElse condition body otherwise, σ =>
    condition.Legal σ ∧ body.Legal σ ∧ Near ((body.footprint σ).size + 4) ∧ otherwise.Legal σ ∧
      Near (1 + (otherwise.footprint σ).size)
  | .whileLoop condition body, σ =>
    condition.Legal σ ∧ body.Legal σ ∧
      Near ((condition.footprint σ).size + (body.footprint σ).size + 7)
  | .forLoop init condition increment body, σ =>
    init.Legal σ.enter ∧ Expression.OptionLegal condition (init.after σ.enter) ∧
      Expression.OptionLegal increment (init.after σ.enter) ∧ body.Legal (init.after σ.enter) ∧
      ForNear condition increment (body.footprint (init.after σ.enter)).size (init.after σ.enter)
  | .ret value, σ =>
    σ.here.kind ≠ .script ∧ (value ≠ none → σ.here.kind ≠ .initializer) ∧
      Expression.OptionLegal value σ

/-- The rules for declarations. -/
def Declaration.Legal : Declaration → Setting → Prop
  | .statement s, σ => s.Legal σ
  | .var name value, σ => VariableLegal name value σ
  | .function f, σ => σ.Declarable f.name ∧ f.Legal .function (σ.define f.name)
  | .cls name superclass methods, σ =>
    σ.Declarable name ∧ SuperclassLegal name superclass σ ∧
      Routine.ListLegal methods (methodsSetting name superclass σ)

/-- The rules for functions: there are not too many parameters, the parameters and the body are one
scope, and constants and captured variables can be counted by a byte. -/
def Routine.Legal : Routine → FunctionKind → Setting → Prop
  | .mk _ parameters body, kind, σ =>
    parameters.length ≤ Compile.maxArity ∧ ParametersLegal parameters (σ.begin kind) ∧
      Declaration.ListLegal body (parameters.foldl Setting.define (σ.begin kind)) ∧
      (Declaration.listFootprint body (parameters.foldl Setting.define (σ.begin kind))).constants ≤
        byteCount ∧
      (Declaration.listFootprint body (parameters.foldl Setting.define (σ.begin kind))).captures ≤
        byteCount

def Declaration.ListLegal : List Declaration → Setting → Prop
  | [], _ => True
  | d :: more, σ => d.Legal σ ∧ Declaration.ListLegal more (d.after σ)

def Routine.ListLegal : List Routine → Setting → Prop
  | [], _ => True
  | .mk name parameters body :: more, σ =>
    (Routine.mk name parameters body).Legal (methodKind name) σ ∧ Routine.ListLegal more σ

end

/-- **A legal program.** The script, too, has a limited number of constants. -/
def Legal (program : List Declaration) : Prop :=
  Declaration.ListLegal program .start ∧
    (Declaration.listFootprint program .start).constants ≤ byteCount

end LoxMachine
