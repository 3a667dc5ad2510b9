import LoxMachine.Proofs.Grammar.Trees
import LoxMachine.RuntimeError

/-!
# What programs without functions mean

A reference for the part of the language without functions and classes: the trees are evaluated one
after another, with an environment for the variables of blocks and a map for the global ones.

* `Plain.Expression`, `Plain.Statement` and `Plain.Declaration` are the trees, and `tree` the parse trees
  that they stand for.
* `Datum` is what an expression is worth. Two strings are equal if they have the same contents.
* `Plain.Expression.eval` and `Plain.Statement.exec` evaluate. Every loop is gone through at most a given
  number of times; when that is not enough, evaluation is interrupted.
* `Plain.evaluate` is the result of a whole program: how it ends and the lines it prints.
-/

namespace LoxMachine

/-! ## Trees -/

/-- The name of a variable. -/
structure Name where
  text : String
  nonempty : text ≠ ""

/-- A number literal. -/
structure Numeral where
  text : String
  value : Number
  value_eq : Number.ofLiteral? text = some value

namespace Plain

/-- An expression without calls, properties and receivers. -/
inductive Expression where
  | nil
  | bool (value : Bool)
  | number (literal : Numeral)
  | string (literal : String)
  | read (name : Name)
  | grouping (e : Expression)
  | unary (operator : UnaryOperator) (e : Expression)
  | binary (operator : BinaryOperator) (left right : Expression)
  | and (left right : Expression)
  | or (left right : Expression)
  | assign (name : Name) (value : Expression)

/-- What stands before the first semicolon of a `for` loop. -/
inductive Initializer where
  | none
  | var (name : Name) (value : Option Expression)
  | expression (e : Expression)

mutual

inductive Statement where
  | expression (e : Expression)
  | print (e : Expression)
  | block (body : List Declaration)
  | ifThen (condition : Expression) (body : Statement)
  | ifThenElse (condition : Expression) (body otherwise : Statement)
  | whileLoop (condition : Expression) (body : Statement)
  | forLoop (init : Initializer) (condition increment : Option Expression) (body : Statement)

inductive Declaration where
  | statement (s : Statement)
  | var (name : Name) (value : Option Expression)

end

/-- The parse tree of an expression. -/
def Expression.tree : Expression → LoxMachine.Expression
  | nil => .nil
  | bool value => .bool value
  | number literal => .number literal.text
  | string literal => .string literal
  | read name => .read name.text
  | grouping e => .grouping e.tree
  | unary operator e => .unary operator e.tree
  | binary operator left right => .binary operator left.tree right.tree
  | and left right => .and left.tree right.tree
  | or left right => .or left.tree right.tree
  | assign name value => .assign name.text value.tree

def Initializer.tree : Initializer → LoxMachine.Initializer
  | none => .none
  | var name value => .var name.text (value.map Expression.tree)
  | expression e => .expression e.tree

mutual

/-- The parse tree of a statement. -/
def Statement.tree : Statement → LoxMachine.Statement
  | .expression e => .expression e.tree
  | .print e => .print e.tree
  | .block body => .block (Declaration.trees body)
  | .ifThen condition body => .ifThen condition.tree body.tree
  | .ifThenElse condition body otherwise => .ifThenElse condition.tree body.tree otherwise.tree
  | .whileLoop condition body => .whileLoop condition.tree body.tree
  | .forLoop init condition increment body =>
    .forLoop init.tree (condition.map Expression.tree) (increment.map Expression.tree) body.tree

/-- The parse tree of a declaration. -/
def Declaration.tree : Declaration → LoxMachine.Declaration
  | .statement s => .statement s.tree
  | .var name value => .var name.text (value.map Expression.tree)

def Declaration.trees : List Declaration → List LoxMachine.Declaration
  | [] => []
  | d :: more => d.tree :: Declaration.trees more

end

end Plain

/-! ## Data -/

/-- What an expression is worth. The only function there is is the clock. -/
inductive Datum where
  | nil
  | bool (b : Bool)
  | number (n : Number)
  | string (s : String)
  | clock
  deriving DecidableEq

namespace Datum

/-- `nil` and `false` count as false. -/
def isFalsey : Datum → Bool
  | nil => true
  | bool b => !b
  | _ => false

/-- Numbers are equal by value and strings by contents; data of different kinds are never equal. -/
def equals : Datum → Datum → Bool
  | nil, nil => true
  | bool a, bool b => a == b
  | number a, number b => a.beq b
  | string s, string t => s == t
  | clock, clock => true
  | _, _ => false

/-- What is printed. -/
def text : Datum → String
  | nil => "nil"
  | bool b => if b then "true" else "false"
  | number n => n.text
  | string s => s
  | clock => "<native fn>"

end Datum

/-- The meaning of a unary operator. -/
def UnaryOperator.apply : UnaryOperator → Datum → Except RuntimeError Datum
  | not, a => .ok (.bool a.isFalsey)
  | negate, .number n => .ok (.number n.neg)
  | negate, _ => .error .operandNotNumber

/-- An operation on two numbers. -/
def Datum.onNumbers (f : Number → Number → Datum) : Datum → Datum → Except RuntimeError Datum
  | .number a, .number b => .ok (f a b)
  | _, _ => .error .operandsNotNumbers

/-- The meaning of a binary operator. `<=` and `>=` negate the opposite comparison. -/
def BinaryOperator.apply : BinaryOperator → Datum → Datum → Except RuntimeError Datum
  | equal, a, b => .ok (.bool (a.equals b))
  | notEqual, a, b => .ok (.bool !(a.equals b))
  | greater, a, b => Datum.onNumbers (fun a b => .bool (b.lt a)) a b
  | greaterEqual, a, b => Datum.onNumbers (fun a b => .bool !(a.lt b)) a b
  | less, a, b => Datum.onNumbers (fun a b => .bool (a.lt b)) a b
  | lessEqual, a, b => Datum.onNumbers (fun a b => .bool !(b.lt a)) a b
  | add, .number a, .number b => .ok (.number (a.add b))
  | add, .string s, .string t => .ok (.string (s ++ t))
  | add, _, _ => .error .operandsNotNumbersOrStrings
  | subtract, a, b => Datum.onNumbers (fun a b => .number (a.sub b)) a b
  | multiply, a, b => Datum.onNumbers (fun a b => .number (a.mul b)) a b
  | divide, a, b => Datum.onNumbers (fun a b => .number (a.div b)) a b

/-! ## Evaluation -/

/-- The state of an evaluation. -/
structure Store where
  /-- The variables of the blocks around the current point, the innermost first. -/
  locals : List (String × Datum) := []
  globals : String → Option Datum
  /-- The lines printed so far. -/
  output : List String := []

/-- Why an evaluation does not go on. -/
inductive Interruption where
  | failed (e : RuntimeError)
  /-- Some loop was not allowed to be gone through often enough. -/
  | outOfFuel

/-- An evaluation. -/
abbrev Eval := EStateM Interruption Store

namespace Plain

/-- A map with one more entry. -/
def extend (globals : String → Option Datum) (name : String) (d : Datum) (x : String) : Option Datum :=
  if x = name then some d else globals x

/-- Change the innermost variable of a name. -/
def update (name : String) (d : Datum) : List (String × Datum) → List (String × Datum)
  | [] => []
  | (x, old) :: rest => if x = name then (x, d) :: rest else (x, old) :: update name d rest

/-- The value of a variable: the innermost local one of the name, or else the global one. -/
def readName (name : String) : Eval Datum := do
  let σ ← get
  match σ.locals.lookup name with
  | some d => return d
  | none =>
    match σ.globals name with
    | some d => return d
    | none => throw (.failed (.undefinedVariable name))

/-- Assign to a variable, which must be there. -/
def assignName (name : String) (d : Datum) : Eval Unit := do
  let σ ← get
  match σ.locals.lookup name with
  | some _ => set { σ with locals := update name d σ.locals }
  | none =>
    match σ.globals name with
    | some _ => set { σ with globals := extend σ.globals name d }
    | none => throw (.failed (.undefinedVariable name))

/-- Make a variable: a local one in a block, and else a global one. -/
def declareName (inBlock : Bool) (name : String) (d : Datum) : Eval Unit :=
  modify fun σ =>
    if inBlock then { σ with locals := (name, d) :: σ.locals }
    else { σ with globals := extend σ.globals name d }

/-- Evaluate in a scope of its own. Its variables are forgotten in the end. -/
def inScope (x : Eval Unit) : Eval Unit := do
  let outer := (← get).locals.length
  x
  modify fun σ => { σ with locals := σ.locals.drop (σ.locals.length - outer) }

/-- The result of an operator. -/
def ofExcept (result : Except RuntimeError Datum) : Eval Datum :=
  match result with
  | .ok d => return d
  | .error e => throw (.failed e)

def Expression.eval : Expression → Eval Datum
  | nil => return .nil
  | bool value => return .bool value
  | number literal => return .number literal.value
  | string literal => return .string (Compile.unquoted literal)
  | read name => readName name.text
  | grouping e => e.eval
  | unary operator e => do ofExcept (operator.apply (← e.eval))
  | binary operator left right => do
    let a ← left.eval
    let b ← right.eval
    ofExcept (operator.apply a b)
  | and left right => do
    let a ← left.eval
    if a.isFalsey then return a else right.eval
  | or left right => do
    let a ← left.eval
    if a.isFalsey then right.eval else return a
  | assign name value => do
    let d ← value.eval
    assignName name.text d
    return d

/-- The value that a variable starts with. -/
def initial : Option Expression → Eval Datum
  | none => return .nil
  | some e => e.eval

/-- Go through a loop as long as its condition holds, at most the given number of times. -/
def repeatWhile (condition : Eval Datum) (body : Eval Unit) : Nat → Eval Unit
  | 0 => throw .outOfFuel
  | n + 1 => do
    if (← condition).isFalsey then return
    body
    repeatWhile condition body n

/-- The condition of a `for` loop; without one it goes on forever. -/
def holds : Option Expression → Eval Datum
  | none => return .bool true
  | some e => e.eval

/-- The increment of a `for` loop. -/
def increase : Option Expression → Eval Unit
  | none => return
  | some e => do let _ ← e.eval

def Initializer.exec : Initializer → Eval Unit
  | none => return
  | var name value => do declareName true name.text (← initial value)
  | expression e => do let _ ← e.eval

mutual

/-- Execute a statement, going through every loop at most `n` times. -/
def Statement.exec (n : Nat) : Statement → Eval Unit
  | .expression e => do let _ ← e.eval
  | .print e => do
    let d ← e.eval
    modify fun σ => { σ with output := σ.output ++ [d.text] }
  | .block body => inScope (Declaration.execList n true body)
  | .ifThen condition body => do
    if (← condition.eval).isFalsey then return
    body.exec n
  | .ifThenElse condition body otherwise => do
    if (← condition.eval).isFalsey then otherwise.exec n else body.exec n
  | .whileLoop condition body => repeatWhile condition.eval (body.exec n) n
  | .forLoop init condition increment body => inScope do
    init.exec
    repeatWhile (holds condition) (do body.exec n; increase increment) n

def Declaration.exec (n : Nat) (inBlock : Bool) : Declaration → Eval Unit
  | .statement s => s.exec n
  | .var name value => do declareName inBlock name.text (← initial value)

def Declaration.execList (n : Nat) (inBlock : Bool) : List Declaration → Eval Unit
  | [] => return
  | d :: more => do
    d.exec n inBlock
    Declaration.execList n inBlock more

end

/-- Before a program starts there is the clock. -/
def start : Store := { globals := extend (fun _ => none) "clock" .clock }

/-- How a program ends, and the lines that it prints until then. There is no answer if some loop would
have to be gone through more than `n` times. -/
def evaluate (n : Nat) (program : List Declaration) : Option (Option RuntimeError × List String) :=
  match Declaration.execList n false program start with
  | .ok _ σ => some (none, σ.output)
  | .error (.failed e) σ => some (some e, σ.output)
  | .error .outOfFuel _ => none

/-- A loop that prints its counter. -/
example : evaluate 3
    [.var ⟨"i", by decide⟩ none,
     .statement (.whileLoop (.unary .not (.read ⟨"i", by decide⟩))
       (.block [.statement (.print (.read ⟨"i", by decide⟩)),
         .statement (.expression (.assign ⟨"i", by decide⟩ (.bool true)))]))] =
      some (none, ["nil"]) := by
  decide

end Plain

end LoxMachine
