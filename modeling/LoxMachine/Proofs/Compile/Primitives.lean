import LoxMachine.Compile

/-!
# What the compiler is made of

Whatever the source is, a compilation is a sequence of a few primitive actions: tokens are read, errors
are reported, code is written, and functions, scopes and variables come and go. This holds after errors,
too.

* `Compiler.Steady R`: the relation `R` between states is respected by the primitive actions that neither
  open nor close a function, a class or a scope. `Compiler.Course R`: it is respected by all of them.
* `Compile.Judgement` is something that can be said of an action in a state; that it leads to a related state
  is one. `Compile.Smooth J`, `Compile.Scoping J` and `Compile.Flow J` say that `J` holds of more and more of
  the primitive actions and of actions put together, leaving panic excepted.
* `Compile.Along J x`: the judgement holds of the action `x` in any state. Its instances go through all
  actions of the compiler, so that a property has to be shown for the primitive ones only.
* `Compiler.Nested R`: the relation is respected by what opens and closes a function, a class or a scope.
  For a course nothing has to be shown; any other relation may compare the states before and after.
-/

namespace LoxMachine

/-- A relation between states of a compilation that the primitive actions respect which neither open nor
close anything. -/
class Compiler.Steady (R : Compiler → Compiler → Prop) : Prop where
  refl (c : Compiler) : R c c
  trans {c₁ c₂ c₃ : Compiler} : R c₁ c₂ → R c₂ c₃ → R c₁ c₃
  report (c : Compiler) (t : Token) (d : Diagnosis) : R c (c.errorAt t d)
  read (c : Compiler) : R c (Compile.advance c).2
  calm (c : Compiler) : R c { c with panicking := false }
  intern (c : Compiler) (s : String) : R c (Compile.intern s c).2
  function (c : Compiler) (f : Function) : R c (Compile.alloc (.function f) c).2
  record (c : Compiler) (e : Event) : R c { c with heap := c.heap.record e }
  /-- Code is written or overwritten. -/
  write (c : Compiler) (f : Chunk → Chunk) (h : c.draft.chunk.size ≤ (f c.draft.chunk).size)
    (constants : (f c.draft.chunk).constants = c.draft.chunk.constants) : R c (Compile.modifyChunk f c).2
  number (c : Compiler) (n : Number) : R c (Compile.modifyChunk (·.addConstant (.number n)) c).2
  /-- A string becomes a constant. -/
  string (c : Compiler) (s : String) : R c (Compile.modifyChunk
    (·.addConstant (.obj (Compile.intern s c).1)) (Compile.intern s c).2).2
  /-- A parameter is counted. -/
  count (c : Compiler) : R c { c with draft := { c.draft with arity := c.draft.arity + 1 } }
  declare (c : Compiler) (name : String) (room : c.draft.locals.length ≠ byteCount) :
    R c { c with draft := { c.draft with locals := { name, depth := none } :: c.draft.locals } }
  settle (c : Compiler) : R c (Compile.markInitialized c).2
  /-- A variable of an enclosing function is used. -/
  resolve (c : Compiler) (name : String) (r : Draft.Resolution)
    (h : Draft.resolve name c.draft c.enclosing = some r) :
    R c { c with draft := r.draft, enclosing := r.enclosing }

/-- A relation between states of a compilation that the primitive actions respect. -/
class Compiler.Course (R : Compiler → Compiler → Prop) : Prop extends Compiler.Steady R where
  constant (c : Compiler) (v : Value) : R c (Compile.modifyChunk (·.addConstant v) c).2
  classes (c : Compiler) (classes : List ClassScope) : R c { c with classes }
  scope (c : Compiler) (depth : Nat) : R c { c with draft := { c.draft with depth } }
  /-- The variables declared last are forgotten. -/
  forget (c : Compiler) (leaves : Local → Bool) :
    R c { c with draft := { c.draft with locals := c.draft.locals.dropWhile leaves } }
  begin (c : Compiler) (kind : FunctionKind) (name : Handle) :
    R c { c with draft := .start kind (some name), enclosing := c.draft :: c.enclosing }
  finish (c : Compiler) : R c (match c.enclosing with
    | [] => { c with draft := .start .script none }
    | d :: enclosing => { c with draft := d, enclosing })

namespace Compile

/-! ## Judgements -/

/-- Something that can be said of an action in a state. -/
structure Judgement where
  holds : {α : Type} → Compiler → Compile α → Prop

/-- The action leads to a related state. -/
abbrev Judgement.leads (R : Compiler → Compiler → Prop) : Judgement := ⟨fun c x => R c (x c).2⟩

instance : Coe (Compiler → Compiler → Prop) Judgement := ⟨Judgement.leads⟩

/-- A judgement of the primitive actions that neither open nor close anything nor leave panic, and of what is
put together from such actions. -/
class Smooth (J : Judgement) : Prop where
  pure {α : Type} (c : Compiler) (a : α) : J.holds c (pure a : Compile α)
  get (c : Compiler) : J.holds c (get : Compile Compiler)
  bind {α β : Type} {c : Compiler} {x : Compile α} {f : α → Compile β} :
    J.holds c x → J.holds (x c).2 (f (x c).1) → J.holds c (x >>= f)
  error (c : Compiler) (d : Diagnosis) : J.holds c (error d)
  errorAtCurrent (c : Compiler) (d : Diagnosis) : J.holds c (errorAtCurrent d)
  read (c : Compiler) : J.holds c advance
  intern (c : Compiler) (s : String) : J.holds c (intern s)
  function (c : Compiler) (f : Function) : J.holds c (alloc (.function f))
  report (c : Compiler) (d : Draft) : J.holds c (reportListing d)
  write (c : Compiler) (f : Chunk → Chunk) (h : c.draft.chunk.size ≤ (f c.draft.chunk).size)
    (constants : (f c.draft.chunk).constants = c.draft.chunk.constants) : J.holds c (modifyChunk f)
  number (c : Compiler) (n : Number) : J.holds c (modifyChunk (·.addConstant (.number n)))
  string (c : Compiler) (s : String) : J.holds c (nameConstant s)
  count (c : Compiler) : J.holds c (modifyDraft fun d => { d with arity := d.arity + 1 })
  declare (c : Compiler) (name : String) (room : c.draft.locals.length ≠ byteCount) :
    J.holds c (modifyDraft fun d => { d with locals := { name, depth := none } :: d.locals })
  settle (c : Compiler) : J.holds c markInitialized
  resolve (c : Compiler) (name : String) (r : Draft.Resolution)
    (h : Draft.resolve name c.draft c.enclosing = some r) :
    J.holds c (modify fun c => { c with draft := r.draft, enclosing := r.enclosing } : Compile Unit)

/-- The judgement holds of what opens and closes a class or a scope, too. -/
class Scoping (J : Judgement) : Prop extends Smooth J where
  classes (c : Compiler) (f : List ClassScope → List ClassScope) :
    J.holds c (modify fun c => { c with classes := f c.classes } : Compile Unit)
  scope (c : Compiler) (f : Nat → Nat) : J.holds c (modifyDraft fun d => { d with depth := f d.depth })
  forget (c : Compiler) (leaves : Local → Bool) :
    J.holds c (modifyDraft fun d => { d with locals := d.locals.dropWhile leaves })

/-- The judgement holds of what opens and closes a function, too, and of any constant that is added. -/
class Flow (J : Judgement) : Prop extends Scoping J where
  constant (c : Compiler) (v : Value) : J.holds c (modifyChunk (·.addConstant v))
  begin (c : Compiler) (kind : FunctionKind) (name : Handle) :
    J.holds c (modify fun c => { c with
      draft := .start kind (some name), enclosing := c.draft :: c.enclosing } : Compile Unit)
  finish (c : Compiler) : J.holds c (modify fun c => match c.enclosing with
    | [] => { c with draft := .start .script none }
    | d :: enclosing => { c with draft := d, enclosing } : Compile Unit)

instance (R : Compiler → Compiler → Prop) [hR : Compiler.Steady R] : Smooth R where
  pure c _ := hR.refl c
  get := hR.refl
  bind := hR.trans
  error c := hR.report c c.previous
  errorAtCurrent c := hR.report c c.current
  read := hR.read
  intern := hR.intern
  function := hR.function
  report c d := by
    change R c (if _ then _ else _)
    split
    · split
      · exact hR.record c _
      · exact hR.refl c
    · exact hR.refl c
  write := hR.write
  number := hR.number
  string c s := by
    change R c ((if byteCount ≤ c.draft.chunk.constants.size then _ else _ : Compile UInt8) _).2
    split
    · exact hR.trans (hR.string c s) (hR.report _ _ _)
    · exact hR.string c s
  count := hR.count
  declare := hR.declare
  settle := hR.settle
  resolve := hR.resolve

instance (R : Compiler → Compiler → Prop) [hR : Compiler.Course R] : Flow R where
  classes c _ := hR.classes c _
  scope c _ := hR.scope c _
  forget := hR.forget
  constant := hR.constant
  begin := hR.begin
  finish := hR.finish

variable {α β : Type}

/-- The judgement holds of the action in any state. -/
class Along (J : Judgement) (x : Compile α) : Prop where
  holds : ∀ c : Compiler, J.holds c x

/-- An action that leads from any state to a related one. -/
theorem Along.along {R : Compiler → Compiler → Prop} {x : Compile α} [h : Along R x] (c : Compiler) :
    R c (x c).2 := h.holds c

variable {J : Judgement} [hJ : Smooth J]

/-! ## Combinations -/

instance (a : α) : Along J (pure a : Compile α) := ⟨fun c => hJ.pure c a⟩

instance : Along J (get : Compile Compiler) := ⟨hJ.get⟩

theorem Along.bind {x : Compile α} {f : α → Compile β} (hx : Along J x) (hf : ∀ a, Along J (f a)) :
    Along J (x >>= f) :=
  ⟨fun c => hJ.bind (hx.holds c) ((hf (x c).1).holds (x c).2)⟩

instance (x : Compile α) (f : α → Compile β) [hx : Along J x] [hf : ∀ a, Along J (f a)] :
    Along J (x >>= f) := Along.bind hx hf

instance (p : Prop) [Decidable p] (x y : Compile α) [Along J x] [Along J y] :
    Along J (if p then x else y) := by
  split <;> infer_instance

instance (l : List α) (f : α → Compile Unit) [∀ a, Along J (f a)] : Along J (l.forM f) := by
  induction l with
  | nil => exact inferInstanceAs (Along J (pure ()))
  | cons a l ih => exact inferInstanceAs (Along J (f a >>= fun _ => l.forM f))

instance (l : Array α) (f : α → Compile Unit) [∀ a, Along J (f a)] : Along J (l.forM f) := by
  have hlist : Array.forM f l = l.toList.forM f := List.forM_toArray' l.toList f rfl
  rw [hlist]
  infer_instance

instance (condition : Compile Bool) (body : Compile Unit) (n : Nat) [Along J condition] [Along J body] :
    Along J (loop condition body n) := by
  induction n with
  | zero => exact inferInstanceAs (Along J (pure ()))
  | succ n ih =>
    unfold loop
    infer_instance

/-! ## Errors, tokens and heap -/

instance (d : Diagnosis) : Along J (error d) := ⟨fun c => hJ.error c d⟩

instance (d : Diagnosis) : Along J (errorAtCurrent d) := ⟨fun c => hJ.errorAtCurrent c d⟩

instance : Along J advance := ⟨hJ.read⟩

instance (kind : TokenKind) : Along J (check kind) := inferInstanceAs (Along J (_ >>= _))

instance (kind : TokenKind) : Along J (accept kind) := inferInstanceAs (Along J (_ >>= _))

instance (kind : TokenKind) (e : Expectation) : Along J (consume kind e) :=
  inferInstanceAs (Along J (_ >>= _))

instance : Along J lexeme := inferInstanceAs (Along J (_ >>= _))

instance {R : Compiler → Compiler → Prop} [hR : Compiler.Steady R] (fuel : Nat) :
    Along R (synchronize fuel) := by
  have hcalm : Along R (modify fun c => { c with panicking := false } : Compile Unit) := ⟨hR.calm⟩
  unfold synchronize
  infer_instance

instance (s : String) : Along J (intern s) := ⟨fun c => hJ.intern c s⟩

instance (f : Function) : Along J (alloc (.function f)) := ⟨fun c => hJ.function c f⟩

/-! ## Code -/

instance (byte : UInt8) (line : Nat) : Along J (modifyChunk (·.write byte line)) :=
  ⟨fun c => hJ.write c _ (by simp) rfl⟩

instance (offset distance : Nat) : Along J (modifyChunk (·.patch offset distance)) :=
  ⟨fun c => hJ.write c _ (by simp) rfl⟩

instance : Along J codeSize := inferInstanceAs (Along J (_ >>= _))

instance (byte : UInt8) : Along J (emitByte byte) := inferInstanceAs (Along J (_ >>= _))

instance (op : Opcode) : Along J (emit op) := inferInstanceAs (Along J (emitByte _))

instance (op : Opcode) (byte : UInt8) : Along J (emitWith op byte) := inferInstanceAs (Along J (_ >>= _))

instance (op : Opcode) : Along J (emitJump op) := inferInstanceAs (Along J (_ >>= _))

instance (offset : Nat) : Along J (patchJump offset) := by
  unfold patchJump
  dsimp only
  infer_instance

instance (start : Nat) : Along J (emitLoop start) := by
  unfold emitLoop
  dsimp only
  infer_instance

theorem along_makeConstant {v : Value} (h : ∀ c, J.holds c (modifyChunk (·.addConstant v))) :
    Along J (makeConstant v) := by
  have hadd : Along J (modifyChunk (·.addConstant v)) := ⟨h⟩
  unfold makeConstant
  dsimp only
  infer_instance

instance (n : Number) : Along J (emitConstant (.number n)) := by
  have := along_makeConstant fun c => hJ.number c n
  exact inferInstanceAs (Along J (_ >>= _))

instance (name : String) : Along J (nameConstant name) := ⟨fun c => hJ.string c name⟩

instance (s : String) : Along J (intern s >>= fun h => emitConstant (.obj h)) :=
  inferInstanceAs (Along J (nameConstant s >>= emitWith .constant))

instance : Along J emitReturn := by
  unfold emitReturn
  dsimp only
  infer_instance

/-! ## Variables -/

instance (name : String) : Along J (addLocal name) := by
  refine ⟨fun c => hJ.bind (hJ.get c) ?_⟩
  split
  · exact hJ.error c _
  · rename_i room
    exact hJ.declare c name room

instance : Along J declareVariable := by
  unfold declareVariable
  dsimp only
  infer_instance

instance (e : Expectation) : Along J (parseVariable e) := inferInstanceAs (Along J (_ >>= _))

instance : Along J markInitialized := ⟨hJ.settle⟩

instance (global : UInt8) : Along J (defineVariable global) := inferInstanceAs (Along J (_ >>= _))

instance (name : String) : Along J (access name) := by
  refine ⟨fun c => hJ.bind (hJ.get c) ?_⟩
  change J.holds c (match Draft.findLocal name c.draft.locals with | some (slot, l) => _ | none => _)
  split
  · exact (inferInstance : Along J (do
      List.forM (Local.useFaults _) error
      return (_ : Access))).holds c
  · split
    · rename_i r hr
      exact hJ.bind (hJ.resolve c name r hr) ((inferInstance : Along J (do
        r.faults.forM error
        return (⟨.getUpvalue, .setUpvalue, r.index⟩ : Access))).holds _)
    · exact (inferInstance : Along J (do
        return (⟨.getGlobal, .setGlobal, ← nameConstant name⟩ : Access))).holds c

instance (name : String) : Along J (readVariable name) := inferInstanceAs (Along J (_ >>= _))

instance (d : Draft) : Along J (reportListing d) := ⟨fun c => hJ.report c d⟩

/-! ## Expressions -/

set_option synthInstance.maxSize 16384

section Rules

variable (operand : Precedence → Compile Unit) [∀ p, Along J (operand p)] (fuel : Nat)

instance : Along J (grouping operand) := inferInstanceAs (Along J (_ >>= _))

instance (operator : TokenKind) : Along J (unary operand operator) := inferInstanceAs (Along J (_ >>= _))

instance (operator : TokenKind) : Along J (binary operand operator) := inferInstanceAs (Along J (_ >>= _))

instance : Along J number := by
  have hmatch : ∀ s : String, Along J (match Number.ofLiteral? s with
    | some n => emitConstant (.number n)
    | none => error .invalidNumber) := fun s => by split <;> infer_instance
  unfold number
  infer_instance

instance : Along J string := inferInstanceAs (Along J (_ >>= _))

instance (canAssign : Bool) : Along J (name operand canAssign) := by
  unfold name
  infer_instance

instance : Along J this := by
  unfold this
  infer_instance

instance (n count : Nat) : Along J (argumentsFrom operand n count) := by
  induction n generalizing count with
  | zero => exact inferInstanceAs (Along J (pure _))
  | succ n ih =>
    unfold argumentsFrom
    dsimp only
    infer_instance

instance : Along J (arguments operand fuel) := by
  unfold arguments
  dsimp only
  infer_instance

instance : Along J (super operand fuel) := by
  have hrest : Along J (do
    consume .dot .dotAfterSuper
    consume .identifier .superclassMethodName
    let name ← nameConstant (← lexeme)
    readVariable "this"
    if ← accept .leftParen then
      let count ← arguments operand fuel
      readVariable "super"
      emitWith .superInvoke name
      emitByte count
    else
      readVariable "super"
      emitWith .getSuper name) := inferInstance
  unfold super
  refine Along.bind inferInstance fun c => ?_
  dsimp only
  split
  · exact Along.bind inferInstance fun _ => hrest
  · split
    · exact Along.bind inferInstance fun _ => hrest
    · exact hrest

instance : Along J (call operand fuel) := inferInstanceAs (Along J (_ >>= _))

instance (canAssign : Bool) : Along J (property operand fuel canAssign) := by
  unfold property
  infer_instance

instance : Along J (conjunction operand) := inferInstanceAs (Along J (_ >>= _))

instance : Along J (disjunction operand) := inferInstanceAs (Along J (_ >>= _))

instance (kind : TokenKind) (canAssign : Bool) : Along J (startExpression operand fuel kind canAssign) := by
  unfold startExpression
  split <;> infer_instance

instance (kind : TokenKind) (canAssign : Bool) :
    Along J (continueExpression operand fuel kind canAssign) := by
  unfold continueExpression
  split <;> infer_instance

end Rules

instance (n : Nat) (p : Precedence) : Along J (parsePrecedence n p) := by
  induction n generalizing p with
  | zero => exact inferInstanceAs (Along J (pure ()))
  | succ n ih =>
    unfold parsePrecedence
    dsimp only
    infer_instance

instance (fuel : Nat) : Along J (expression fuel) := inferInstanceAs (Along J (parsePrecedence _ _))

/-! ## Statements and declarations -/

section Rules

variable (expr stmt decl : Compile Unit) [Along J expr] [Along J stmt] [Along J decl] (fuel : Nat)

instance : Along J (block decl fuel) := by
  unfold block
  infer_instance

instance : Along J (printStatement expr) := inferInstanceAs (Along J (_ >>= _))

instance : Along J (expressionStatement expr) := inferInstanceAs (Along J (_ >>= _))

instance : Along J (returnStatement expr) := by
  unfold returnStatement
  dsimp only
  infer_instance

instance : Along J (ifStatement expr stmt) := by
  unfold ifStatement
  dsimp only
  infer_instance

instance : Along J (whileStatement expr stmt) := inferInstanceAs (Along J (_ >>= _))

instance : Along J (varDeclaration expr) := by
  unfold varDeclaration
  dsimp only
  infer_instance

instance : Along J (forInitializer expr) := by
  unfold forInitializer
  infer_instance

instance : Along J (forCondition expr) := by
  unfold forCondition
  infer_instance

instance (start : Nat) : Along J (forIncrement expr start) := by
  unfold forIncrement
  infer_instance

instance (n : Nat) : Along J (parameters n) := by
  have hcount : Along J (modifyDraft fun d => { d with arity := d.arity + 1 }) := ⟨hJ.count⟩
  induction n with
  | zero => exact inferInstanceAs (Along J (pure ()))
  | succ n ih =>
    unfold parameters
    dsimp only
    infer_instance

instance [∀ kind, Along J (functionBody decl fuel kind)] : Along J (funDeclaration decl fuel) :=
  inferInstanceAs (Along J (_ >>= _))

instance [∀ kind, Along J (functionBody decl fuel kind)] : Along J (method decl fuel) :=
  inferInstanceAs (Along J (_ >>= _))

end Rules

end Compile

/-! ## What is opened and closed -/

open Compile in
/-- A relation that is also respected by what opens a function, a class or a scope and closes it. -/
class Compiler.Nested (R : Compiler → Compiler → Prop) : Prop extends Compiler.Steady R where
  scope (decl : Compile Unit) [Along R decl] (fuel : Nat) :
    Along R (do beginScope; block decl fuel; endScope)
  loop (expr stmt : Compile Unit) [Along R expr] [Along R stmt] : Along R (forStatement expr stmt)
  body (decl : Compile Unit) [Along R decl] (fuel : Nat) (kind : FunctionKind) :
    Along R (functionBody decl fuel kind)
  cls (decl : Compile Unit) [Along R decl] (fuel : Nat) : Along R (classDeclaration decl fuel)

namespace Compile

set_option synthInstance.maxSize 16384

section Flow

variable {J : Judgement} [hJ : Flow J]

instance (v : Value) : Along J (makeConstant v) := along_makeConstant fun c => hJ.constant c v

instance (kind : FunctionKind) : Along J (beginFunction kind) := by
  have hbegin : ∀ name : Handle, Along J (modify fun c => { c with
      draft := .start kind (some name), enclosing := c.draft :: c.enclosing } : Compile Unit) :=
    fun name => ⟨fun c => hJ.begin c kind name⟩
  exact inferInstanceAs (Along J (_ >>= _))

instance : Along J endFunction := by
  have hfinish : Along J (modify fun c => match c.enclosing with
      | [] => { c with draft := .start .script none }
      | d :: enclosing => { c with draft := d, enclosing } : Compile Unit) := ⟨hJ.finish⟩
  exact inferInstanceAs (Along J (_ >>= _))

end Flow

section Scoping

variable {J : Judgement} [hJ : Scoping J] (expr stmt decl : Compile Unit)
  [Along J expr] [Along J stmt] (fuel : Nat)

instance : Along J beginScope := ⟨fun c => hJ.scope c (· + 1)⟩

instance : Along J endScope := by
  have hclose : Along J (modifyDraft fun d => { d with depth := d.depth - 1 }) :=
    ⟨fun c => hJ.scope c (· - 1)⟩
  have hforget : ∀ leaves : Local → Bool,
      Along J (modifyDraft fun d => { d with locals := d.locals.dropWhile leaves }) :=
    fun leaves => ⟨fun c => hJ.forget c leaves⟩
  unfold endScope
  dsimp only
  infer_instance

theorem along_forEnd (leave : Option Nat) : Along J (match leave with
    | some onFalse => do
      patchJump onFalse
      let _ ← emit .pop
      endScope
    | _ => endScope) := by
  split <;> infer_instance

theorem along_forStatement : Along J (forStatement expr stmt) := by
  have hend := along_forEnd (J := J)
  unfold forStatement
  dsimp only
  infer_instance

instance (name : String) : Along J (superclass name) := by
  have hclasses : Along J (modify fun c =>
      { c with classes := { hasSuperclass := true } :: c.classes.drop 1 } : Compile Unit) :=
    ⟨fun c => hJ.classes c ({ hasSuperclass := true } :: ·.drop 1)⟩
  unfold superclass
  dsimp only
  infer_instance

theorem along_classDeclaration [∀ kind, Along J (functionBody decl fuel kind)] :
    Along J (classDeclaration decl fuel) := by
  have hopen : Along J (modify fun c => { c with classes := {} :: c.classes } : Compile Unit) :=
    ⟨fun c => hJ.classes c ({} :: ·)⟩
  have hclose : Along J (modify fun c => { c with classes := c.classes.drop 1 } : Compile Unit) :=
    ⟨fun c => hJ.classes c (·.drop 1)⟩
  have hbody : ∀ name, Along J (classBody decl fuel name) := fun name => by
    unfold classBody
    dsimp only
    infer_instance
  unfold classDeclaration
  dsimp only
  infer_instance

end Scoping

theorem along_functionBody {J : Judgement} [hJ : Flow J] (decl : Compile Unit) (fuel : Nat)
    [Along J (block decl fuel)] (kind : FunctionKind) :
    Along J (functionBody decl fuel kind) := by
  unfold functionBody
  refine Along.bind inferInstance fun _ => Along.bind inferInstance fun _ =>
    Along.bind inferInstance fun _ => Along.bind inferInstance fun _ => ?_
  dsimp only
  split <;> infer_instance

theorem along_statementRule {J : Judgement} [Smooth J] (expr stmt decl : Compile Unit) [Along J expr] [Along J stmt]
    (fuel : Nat) [Along J (forStatement expr stmt)] [Along J (do beginScope; block decl fuel; endScope)] :
    Along J (statementRule expr stmt decl fuel) := by
  unfold statementRule
  infer_instance

instance {R : Compiler → Compiler → Prop} [Compiler.Course R] : Compiler.Nested R where
  scope _ _ _ := inferInstance
  loop := along_forStatement
  body decl _ fuel kind := along_functionBody decl fuel kind
  cls decl _ fuel :=
    have := along_functionBody (J := R) decl fuel
    along_classDeclaration decl fuel

/-! ## The parser -/

section Nested

variable {R : Compiler → Compiler → Prop} [hR : Compiler.Nested R]

section Rules

variable (expr stmt decl : Compile Unit) [Along R expr] [Along R stmt] [Along R decl] (fuel : Nat)

instance (kind : FunctionKind) : Along R (functionBody decl fuel kind) := hR.body decl fuel kind

instance : Along R (statementRule expr stmt decl fuel) := by
  have := hR.scope decl fuel
  have := hR.loop expr stmt
  exact along_statementRule expr stmt decl fuel

instance : Along R (declarationRule expr stmt decl fuel) := by
  have := hR.cls decl fuel
  unfold declarationRule
  dsimp only
  infer_instance

end Rules

/-- Statements and declarations are tied together by their number of steps. -/
theorem along_statement_declaration (n : Nat) : Along R (statement n) ∧ Along R (declaration n) := by
  induction n with
  | zero => exact ⟨inferInstanceAs (Along R (pure ())), inferInstanceAs (Along R (pure ()))⟩
  | succ n ih =>
    obtain ⟨hs, hd⟩ := ih
    exact ⟨inferInstanceAs (Along R (statementRule (expression n) (statement n) (declaration n) n)),
      inferInstanceAs (Along R (declarationRule (expression n) (statement n) (declaration n) n))⟩

instance (n : Nat) : Along R (statement n) := (along_statement_declaration n).1

instance (n : Nat) : Along R (declaration n) := (along_statement_declaration n).2

instance (fuel : Nat) : Along R (script fuel) := by
  unfold script
  infer_instance

end Nested

end Compile

end LoxMachine
