import LoxMachine.Proofs.Grammar.Stream

/-!
# How far a tree reaches

* `Expression.reads_run`, `Statement.reads_run` and `Declaration.reads_run`: compiling along a tree
  reads the symbols of the tree, neither more nor fewer.
-/

namespace LoxMachine

open Compile

set_option synthInstance.maxSize 4096

/-! ## Expressions -/

instance (p : Prop) [Decidable p] (d : Diagnosis) : Still (errorIf p d) := by
  unfold errorIf
  infer_instance

instance (p : Prop) [Decidable p] (d : Diagnosis) : Orderly (errorIf p d) := by
  unfold errorIf
  infer_instance

namespace Expression

instance : Still checkSuper := by
  unfold checkSuper
  refine Still.bind inferInstance fun c => ?_
  split <;> infer_instance

mutual

theorem reads_run : ∀ e : Expression, Reads e.run e.symbols.length
  | nil | bool _ | read _ | string _ => by
    unfold run
    exact Reads.of_eq inferInstance (by simp [symbols])
  | number literal => by
    unfold run
    refine Reads.of_eq (Reads.bind (k := 1) (l := 0) inferInstance fun _ => ?_) (by simp [symbols])
    split <;> infer_instance
  | this => by
    unfold run
    exact Reads.of_eq inferInstance (by simp [symbols])
  | grouping e => by
    have := reads_run e
    unfold run
    exact Reads.of_eq inferInstance (by simp [symbols]; omega)
  | superProperty name => by
    unfold run
    exact Reads.of_eq inferInstance (by simp [symbols])
  | superInvoke name arguments => by
    have := reads_runArguments arguments
    unfold run
    exact Reads.of_eq inferInstance (by simp [symbols]; omega)
  | call callee arguments => by
    have := reads_run callee
    have := reads_runArguments arguments
    unfold run
    exact Reads.of_eq inferInstance (by simp [symbols]; omega)
  | property target name => by
    have := reads_run target
    unfold run
    exact Reads.of_eq inferInstance (by simp [symbols])
  | invoke target name arguments => by
    have := reads_run target
    have := reads_runArguments arguments
    unfold run
    exact Reads.of_eq inferInstance (by simp [symbols]; omega)
  | unary operator e => by
    have := reads_run e
    unfold run
    exact Reads.of_eq inferInstance (by simp [symbols]; omega)
  | binary operator left right | and left right | or left right => by
    have := reads_run left
    have := reads_run right
    unfold run
    exact Reads.of_eq inferInstance (by simp [symbols]; omega)
  | assign name value => by
    have := reads_run value
    unfold run
    exact Reads.of_eq inferInstance (by simp [symbols]; omega)
  | setProperty target name value => by
    have := reads_run target
    have := reads_run value
    unfold run
    exact Reads.of_eq inferInstance (by simp [symbols]; omega)

theorem reads_runArguments : ∀ arguments : List Expression,
    Reads (runArguments arguments) (listSymbols arguments).length
  | [] => inferInstanceAs (Reads (pure ()) 0)
  | e :: more => by
    have := reads_run e
    have := reads_runMore 1 more
    unfold runArguments
    exact Reads.of_eq inferInstance (by simp [listSymbols])

theorem reads_runMore (count : Nat) : ∀ arguments : List Expression,
    Reads (runMore count arguments) (moreSymbols arguments).length
  | [] => inferInstanceAs (Reads (pure ()) 0)
  | e :: more => by
    have := reads_run e
    have := reads_runMore (count + 1) more
    unfold runMore
    exact Reads.of_eq inferInstance (by simp [moreSymbols]; omega)

end

instance (e : Expression) : Reads e.run e.symbols.length := reads_run e

theorem length_symbols_pos (e : Expression) : 0 < e.symbols.length := by
  cases e <;> unfold symbols <;> simp only [List.length_append, List.length_cons] <;> omega

end Expression

/-! ## Parts of statements -/

instance (name : String) : Still (declareName name) := by
  unfold declareName
  dsimp only
  infer_instance

instance (name : String) : Reads (runName name) 1 := by
  unfold runName
  exact Reads.of_eq (Reads.bind (k := 1) inferInstance fun _ => Reads.bind (k := 0) (l := 0)
    inferInstance fun _ => inferInstance) rfl

theorem reads_runValue (value : Option Expression) :
    Reads (runValue value) (value.elim 0 fun e => 1 + e.symbols.length) := by
  unfold runValue
  cases value with
  | none => exact Reads.of_eq inferInstance rfl
  | some e => exact Reads.of_eq inferInstance rfl

/-- How many symbols follow `var` in a variable declaration. -/
theorem reads_runVariable (name : String) (value : Option Expression) :
    Reads (runVariable name value) ((variableSymbols name value).length - 1) := by
  have := reads_runValue value
  unfold runVariable
  refine Reads.of_eq inferInstance ?_
  cases value <;> simp [variableSymbols]
  omega

theorem Initializer.reads_run (init : Initializer) : Reads init.run init.symbols.length := by
  cases init with
  | none => exact inferInstanceAs (Reads advance 1)
  | var name value =>
    have := reads_runVariable name value
    unfold run
    refine Reads.of_eq inferInstance ?_
    cases value <;> simp [symbols, variableSymbols]
    omega
  | expression e =>
    unfold run
    exact Reads.of_eq inferInstance (by simp [symbols])

theorem reads_runCondition (condition : Option Expression) :
    Reads (runCondition condition) ((Expression.optionSymbols condition).length + 1) := by
  cases condition with
  | none => exact Reads.of_eq (inferInstanceAs (Reads (_ >>= _) (1 + 0))) rfl
  | some e =>
    unfold runCondition
    exact Reads.of_eq inferInstance (by simp [Expression.optionSymbols])

theorem reads_runIncrement (start : Nat) (increment : Option Expression) :
    Reads (runIncrement start increment) ((Expression.optionSymbols increment).length + 1) := by
  cases increment with
  | none => exact Reads.of_eq (inferInstanceAs (Reads (_ >>= _) (1 + 0))) rfl
  | some e =>
    unfold runIncrement
    exact Reads.of_eq inferInstance (by simp [Expression.optionSymbols])

instance (leave : Option Nat) : Still (runLeave leave) := by
  unfold runLeave
  cases leave <;> infer_instance

instance : Still countParameter := by
  unfold countParameter
  infer_instance

instance (name : String) : Reads (runParameter name) 1 := by
  unfold runParameter
  exact Reads.of_eq inferInstance rfl

theorem reads_moreParameters (parameters : List String) :
    Reads (parameters.forM fun q => do advance; runParameter q)
      (parameters.flatMap fun q => [TokenKind.comma.symbol, .name q]).length := by
  induction parameters with
  | nil => exact inferInstanceAs (Reads (pure ()) 0)
  | cons q more ih =>
    have hone : Reads (do advance; runParameter q) 2 := Reads.of_eq inferInstance rfl
    refine Reads.of_eq (Reads.bind hone fun _ => ih) ?_
    simp
    omega

theorem reads_runParameters (parameters : List String) :
    Reads (runParameters parameters) (parameterSymbols parameters).length := by
  cases parameters with
  | nil => exact inferInstanceAs (Reads (pure ()) 0)
  | cons p more =>
    have := reads_moreParameters more
    unfold runParameters
    exact Reads.of_eq inferInstance (by simp [parameterSymbols]; omega)

instance (kind : FunctionKind) (name : String) : Still (beginNamed kind name) :=
  inferInstanceAs (Still (_ >>= _))

instance (d : Draft) : Still (emitClosure d) := by
  unfold emitClosure
  infer_instance

theorem reads_runSuperclass (name superclass : String) : Reads (runSuperclass name superclass) 2 := by
  unfold runSuperclass
  exact Reads.of_eq inferInstance rfl

instance : Still leaveClass := by
  unfold leaveClass
  infer_instance

/-! ## Statements and declarations -/

section Parts

variable (body otherwise methods : Compile Unit) {k l : Nat} [Reads body k] [Reads otherwise l]
  [Reads methods l]

instance (condition : Expression) :
    Reads (runIf condition body) (condition.symbols.length + 2 + k) := by
  unfold runIf
  exact Reads.of_eq inferInstance (by omega)

instance (condition : Expression) :
    Reads (runIfElse condition body otherwise) (condition.symbols.length + 3 + k + l) := by
  unfold runIfElse
  exact Reads.of_eq inferInstance (by omega)

instance (condition : Expression) :
    Reads (runWhile condition body) (condition.symbols.length + 2 + k) := by
  unfold runWhile
  exact Reads.of_eq inferInstance (by omega)

instance (init : Initializer) (condition increment : Option Expression) :
    Reads (runFor init condition increment body) (init.symbols.length +
      (Expression.optionSymbols condition).length + (Expression.optionSymbols increment).length + 3 + k) := by
  have := init.reads_run
  have := reads_runCondition condition
  have := fun start => reads_runIncrement start increment
  unfold runFor
  exact Reads.of_eq inferInstance (by omega)

instance (value : Option Expression) :
    Reads (runResult value) ((Expression.optionSymbols value).length + 1) := by
  unfold runResult
  cases value with
  | none => exact Reads.of_eq inferInstance (by simp [Expression.optionSymbols])
  | some e => exact Reads.of_eq inferInstance (by simp [Expression.optionSymbols])

instance (value : Option Expression) :
    Reads (runReturn value) ((Expression.optionSymbols value).length + 1) := by
  unfold runReturn
  exact Reads.of_eq inferInstance (by omega)

instance : Reads (runBlock body) (k + 1) := by
  unfold runBlock
  exact Reads.of_eq inferInstance (by omega)

instance (name : String) : Reads (runFunction name body) (k + 1) := by
  unfold runFunction
  exact Reads.of_eq inferInstance (by omega)

theorem reads_runClass (name : String) (superclass : Option String) :
    Reads (runClass name superclass methods)
      (superclass.elim 0 (fun _ => 2) + l + 3) := by
  unfold runClass
  cases superclass with
  | none => exact Reads.of_eq inferInstance (by simp; omega)
  | some s =>
    have := reads_runSuperclass name s
    exact Reads.of_eq inferInstance (by simp; omega)

instance (name : String) : Reads (runMethod name body) (k + 1) := by
  unfold runMethod
  exact Reads.of_eq inferInstance (by omega)

end Parts

mutual

theorem Statement.reads_run : ∀ s : Statement, Reads s.run s.symbols.length
  | .expression e | .print e => by
    unfold Statement.run
    exact Reads.of_eq inferInstance (by simp [Statement.symbols]; try omega)
  | .block body => by
    have := Declaration.reads_runList body
    unfold Statement.run
    exact Reads.of_eq inferInstance (by simp [Statement.symbols]; omega)
  | .ifThen condition body => by
    have := Statement.reads_run body
    unfold Statement.run
    exact Reads.of_eq inferInstance (by simp [Statement.symbols]; omega)
  | .ifThenElse condition body otherwise => by
    have := Statement.reads_run body
    have := Statement.reads_run otherwise
    unfold Statement.run
    exact Reads.of_eq inferInstance (by simp [Statement.symbols]; omega)
  | .whileLoop condition body => by
    have := Statement.reads_run body
    unfold Statement.run
    exact Reads.of_eq inferInstance (by simp [Statement.symbols]; omega)
  | .forLoop init condition increment body => by
    have := Statement.reads_run body
    unfold Statement.run
    exact Reads.of_eq inferInstance (by simp [Statement.symbols]; omega)
  | .ret value => by
    unfold Statement.run
    exact Reads.of_eq inferInstance (by simp [Statement.symbols]; omega)

theorem Declaration.reads_run : ∀ d : Declaration, Reads d.run d.symbols.length
  | .statement s => by
    unfold Declaration.run
    exact Statement.reads_run s
  | .var name value => by
    have := reads_runVariable name value
    unfold Declaration.run
    refine Reads.of_eq inferInstance ?_
    cases value <;> simp [Declaration.symbols, variableSymbols]
    omega
  | .function f => by
    have := Routine.reads_run .function f
    unfold Declaration.run
    refine Reads.of_eq inferInstance ?_
    obtain ⟨name, parameters, body⟩ := f
    simp [Declaration.symbols, Routine.symbols]
    omega
  | .cls name superclass methods => by
    have := Routine.reads_runMethods methods
    have := reads_runClass (Routine.runMethods methods) name superclass
    unfold Declaration.run
    refine Reads.of_eq inferInstance ?_
    cases superclass <;> simp [Declaration.symbols] <;> omega

theorem Routine.reads_run (kind : FunctionKind) : ∀ f : Routine,
    Reads (f.run kind) (f.symbols.length - 1)
  | .mk name parameters body => by
    have := reads_runParameters parameters
    have := Declaration.reads_runList body
    unfold Routine.run
    exact Reads.of_eq inferInstance (by simp [Routine.symbols]; omega)

theorem Declaration.reads_runList : ∀ body : List Declaration,
    Reads (Declaration.runList body) (Declaration.listSymbols body).length
  | [] => inferInstanceAs (Reads (pure ()) 0)
  | d :: more => by
    have := Declaration.reads_run d
    have := Declaration.reads_runList more
    unfold Declaration.runList
    exact Reads.of_eq inferInstance (by simp [Declaration.listSymbols])

theorem Routine.reads_runMethods : ∀ methods : List Routine,
    Reads (Routine.runMethods methods) (Routine.listSymbols methods).length
  | [] => inferInstanceAs (Reads (pure ()) 0)
  | .mk name parameters body :: more => by
    have := fun kind => Routine.reads_run kind (.mk name parameters body)
    have := Routine.reads_runMethods more
    unfold Routine.runMethods
    exact Reads.of_eq inferInstance (by simp [Routine.listSymbols, Routine.symbols]; omega)

end

instance (s : Statement) : Reads s.run s.symbols.length := s.reads_run

instance (d : Declaration) : Reads d.run d.symbols.length := d.reads_run

instance (body : List Declaration) :
    Reads (Declaration.runList body) (Declaration.listSymbols body).length :=
  Declaration.reads_runList body

instance (methods : List Routine) :
    Reads (Routine.runMethods methods) (Routine.listSymbols methods).length :=
  Routine.reads_runMethods methods

end LoxMachine
