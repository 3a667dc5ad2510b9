import LoxMachine.Proofs.Compile.Verified
import LoxMachine.Proofs.Twin.Compilers

/-!
# Parsing does not depend on the handles

* `resolve_twin`: a captured variable is found in the same way in twin drafts.
* The instances of `Blind` for the actions on scopes and variables, and for the rules of expressions,
  statements and declarations, follow their texts.
* `compile_twin`: compilations of one source in twin heaps find the same errors, or make paired
  functions; what the callers need is kept in both heaps, and still paired.
* `Heap.Healthy.compile`: a compilation keeps the heap healthy, and what can be reached from the roots.
-/

namespace LoxMachine

namespace Draft

variable {R : Pairing} {heap : Heap} {d d' : Draft} {outer outer' : List Draft}

theorem Twin.declaresHere (h : d.Twin R heap d') : d.declaresHere = d'.declaresHere := by
  funext name
  rw [Draft.declaresHere, Draft.declaresHere, h.locals, h.depth]

theorem capture_twin (h : d.Twin R heap d') (c : Capture) :
    (d.capture c).index = (d'.capture c).index ∧ (d.capture c).faults = (d'.capture c).faults ∧
      (d.capture c).draft.Twin R heap (d'.capture c).draft := by
  unfold capture
  rw [h.captures]
  split
  · exact ⟨rfl, rfl, h⟩
  · split
    · exact ⟨rfl, rfl, h⟩
    · exact ⟨rfl, rfl, { h with captures := rfl, upvalueCount := rfl }⟩

/-- The same variable was found, in twin drafts. -/
structure Resolution.Twin (R : Pairing) (heap : Heap) (r r' : Resolution) : Prop where
  index : r.index = r'.index
  draft : r.draft.Twin R heap r'.draft
  enclosing : List.Forall₂ (Draft.Twin R heap) r.enclosing r'.enclosing
  faults : r.faults = r'.faults

/-- **A variable of an enclosing function is found in the same way.** -/
theorem resolve_twin (name : String) (hd : d.Twin R heap d')
    (ho : List.Forall₂ (Draft.Twin R heap) outer outer') :
    Option.Rel (Resolution.Twin R heap) (resolve name d outer) (resolve name d' outer') := by
  induction ho generalizing d d' with
  | nil => exact .none
  | @cons e e' outer outer' he ho ih =>
    unfold resolve
    rw [he.locals]
    cases findLocal name e'.locals with
    | some found =>
      obtain ⟨slot, l⟩ := found
      obtain ⟨hindex, hfaults, hdraft⟩ :=
        capture_twin hd { index := UInt8.ofNat slot, isLocal := true }
      exact .some ⟨hindex, hdraft, .cons { he with locals := rfl } ho,
        congrArg (l.useFaults ++ ·) hfaults⟩
    | none =>
      have hrest := ih he
      generalize resolve name e outer = r, resolve name e' outer' = r' at hrest
      cases hrest with
      | none => exact .none
      | @some r r' hr =>
        dsimp only
        rw [hr.index, hr.faults]
        obtain ⟨hindex, hfaults, hdraft⟩ := capture_twin hd { index := r'.index, isLocal := false }
        exact .some ⟨hindex, hdraft, .cons hr.draft hr.enclosing, congrArg (r'.faults ++ ·) hfaults⟩

end Draft

namespace Compile

/-! ## Variables -/

instance : Blind beginScope :=
  blind_modifyDraft fun h => { h with depth := congrArg (· + 1) h.depth }

instance : Blind endScope := by
  have hlocals : ∀ leaves : Local → Bool,
      Blind (modifyDraft fun d => { d with locals := d.locals.dropWhile leaves }) := fun leaves =>
    blind_modifyDraft fun h => { h with locals := congrArg (List.dropWhile leaves) h.locals }
  refine .bind (blind_modifyDraft fun h => { h with depth := congrArg (· - 1) h.depth }) fun _ => ?_
  exact .reads (fun c => inferInstance) fun h => by simp only [h.draft.locals, h.draft.depth]

instance (name : String) : Blind (addLocal name) := by
  have hadd : Blind (modifyDraft fun d => { d with locals := { name, depth := none } :: d.locals }) :=
    blind_modifyDraft fun h => { h with locals := congrArg (List.cons _) h.locals }
  exact .reads (fun c => inferInstance) fun h => by rw [h.draft.locals]

instance : Blind declareVariable := by
  unfold declareVariable
  refine .reads (fun c => ?_) fun h => ?_
  · dsimp only
    infer_instance
  · dsimp only
    rw [h.draft.depth, h.draft.declaresHere]

instance (e : Expectation) : Blind (parseVariable e) := by
  unfold parseVariable
  refine .bind inferInstance fun _ => .bind inferInstance fun _ => ?_
  exact .reads (fun c => inferInstance) fun h => by rw [h.draft.depth]

instance : Blind markInitialized := by
  refine blind_modifyDraft fun h => ?_
  rw [h.depth, h.locals]
  split
  · exact h
  · split
    · exact h
    · exact { h with locals := rfl, depth := rfl }

instance (global : UInt8) : Blind (defineVariable global) :=
  .reads (fun c => inferInstance) fun h => by rw [h.draft.depth]

instance (name : String) : Blind (access name) := by
  refine ⟨fun {o R c c'} h => .get ?_⟩
  rw [h.draft.locals]
  cases Draft.findLocal name c'.draft.locals with
  | some found => exact Blind.agree h
  | none =>
    have hresolve := Draft.resolve_twin name h.draft h.enclosing
    generalize Draft.resolve name c.draft c.enclosing = r,
      Draft.resolve name c'.draft c'.enclosing = r' at hresolve
    cases hresolve with
    | none => exact Blind.agree h
    | @some r r' hr =>
      have hrest : Agree o
          (do r.faults.forM error; return (⟨.getUpvalue, .setUpvalue, r.index⟩ : Access))
          (do r'.faults.forM error; return (⟨.getUpvalue, .setUpvalue, r'.index⟩ : Access))
          { c with draft := r.draft, enclosing := r.enclosing }
          { c' with draft := r'.draft, enclosing := r'.enclosing } := by
        rw [hr.faults, hr.index]
        exact Blind.agree { h with draft := hr.draft, enclosing := hr.enclosing }
      exact hrest

instance (name : String) : Blind (readVariable name) := inferInstanceAs (Blind (_ >>= _))

/-! ## Expressions -/

set_option synthInstance.maxSize 4096

section Rules

variable (operand : Precedence → Compile Unit) [∀ p, Blind (operand p)] (fuel : Nat)

instance : Blind (grouping operand) := inferInstanceAs (Blind (_ >>= _))

instance (operator : TokenKind) : Blind (unary operand operator) := inferInstanceAs (Blind (_ >>= _))

instance (operator : TokenKind) : Blind (binary operand operator) := inferInstanceAs (Blind (_ >>= _))

instance : Blind number := by
  refine .bind inferInstance fun s => ?_
  cases Number.ofLiteral? s with
  | some n => exact ⟨fun h => emitConstant_agree h (.number n)⟩
  | none => exact inferInstanceAs (Blind (error _))

instance : Blind string := by
  refine .bind inferInstance fun s => ⟨fun {o R c c'} h => ?_⟩
  obtain ⟨S, hxy, -, hc⟩ := intern_twin h (unquoted s)
  exact emitConstant_agree hc (.obj hxy)

instance (canAssign : Bool) : Blind (name operand canAssign) := by
  unfold name
  infer_instance

instance : Blind this := .reads (fun c => inferInstance) fun h => by rw [h.classes]

instance (n count : Nat) : Blind (argumentsFrom operand n count) := by
  induction n generalizing count with
  | zero => exact inferInstanceAs (Blind (pure _))
  | succ n ih =>
    unfold argumentsFrom
    dsimp only
    infer_instance

instance : Blind (arguments operand fuel) := by
  unfold arguments
  dsimp only
  infer_instance

instance : Blind (super operand fuel) := by
  unfold super
  refine .reads (fun c => ?_) fun h => by rw [h.classes]
  dsimp only
  split <;> infer_instance

instance : Blind (call operand fuel) := inferInstanceAs (Blind (_ >>= _))

instance (canAssign : Bool) : Blind (property operand fuel canAssign) := by
  unfold property
  infer_instance

instance : Blind (conjunction operand) := inferInstanceAs (Blind (_ >>= _))

instance : Blind (disjunction operand) := inferInstanceAs (Blind (_ >>= _))

instance (kind : TokenKind) (canAssign : Bool) :
    Blind (startExpression operand fuel kind canAssign) := by
  unfold startExpression
  split <;> infer_instance

instance (kind : TokenKind) (canAssign : Bool) :
    Blind (continueExpression operand fuel kind canAssign) := by
  unfold continueExpression
  split <;> infer_instance

end Rules

instance (n : Nat) (p : Precedence) : Blind (parsePrecedence n p) := by
  induction n generalizing p with
  | zero => exact inferInstanceAs (Blind (pure ()))
  | succ n ih =>
    have hcontinues : Blind (do
        return decide (p ≤ Precedence.ofToken (← get).current.kind) : Compile Bool) :=
      .reads (fun c => inferInstance) fun h => by rw [h.current]
    have hstep : ∀ canAssign, Blind (do
        advance
        continueExpression (parsePrecedence n) n (← get).previous.kind canAssign) := fun canAssign =>
      .bind inferInstance fun _ => .reads (fun c => inferInstance) fun h => by rw [h.previous]
    unfold parsePrecedence
    refine .bind inferInstance fun _ => .reads (fun c => ?_) fun h => by rw [h.previous]
    dsimp only
    infer_instance

instance (fuel : Nat) : Blind (expression fuel) := inferInstanceAs (Blind (parsePrecedence _ _))

/-! ## Statements and declarations -/

section Rules

variable (expr stmt decl : Compile Unit) [Blind expr] [Blind stmt] [Blind decl] (fuel : Nat)

instance : Blind (block decl fuel) := by
  unfold block
  infer_instance

instance : Blind (printStatement expr) := inferInstanceAs (Blind (_ >>= _))

instance : Blind (expressionStatement expr) := inferInstanceAs (Blind (_ >>= _))

instance : Blind (returnStatement expr) := by
  have hvalue : Blind (do
      if (← get).draft.kind = .initializer then error .returnValueFromInitializer
      expr
      consume .semicolon .semicolonAfterReturnValue
      emit .ret : Compile Unit) :=
    .reads (fun c => inferInstance) fun h => by rw [h.draft.kind]
  unfold returnStatement
  refine .reads (fun c => ?_) fun h => by rw [h.draft.kind]
  dsimp only
  infer_instance

instance : Blind (ifStatement expr stmt) := by
  unfold ifStatement
  dsimp only
  infer_instance

instance : Blind (whileStatement expr stmt) := inferInstanceAs (Blind (_ >>= _))

instance : Blind (varDeclaration expr) := by
  unfold varDeclaration
  dsimp only
  infer_instance

instance : Blind (forInitializer expr) := by
  unfold forInitializer
  infer_instance

instance : Blind (forCondition expr) := by
  unfold forCondition
  infer_instance

instance (start : Nat) : Blind (forIncrement expr start) := by
  unfold forIncrement
  infer_instance

/-- The end of a `for` loop, which depends on whether it has a condition. -/
theorem blind_forEnd (leave : Option Nat) : Blind (match leave with
    | some onFalse => do
      patchJump onFalse
      let _ ← emit .pop
      endScope
    | _ => endScope) := by
  split <;> infer_instance

instance : Blind (forStatement expr stmt) := by
  have := blind_forEnd
  unfold forStatement
  dsimp only
  infer_instance

instance : Blind (statementRule expr stmt decl fuel) := by
  unfold statementRule
  infer_instance

instance (n : Nat) : Blind (parameters n) := by
  induction n with
  | zero => exact inferInstanceAs (Blind (pure ()))
  | succ n ih =>
    unfold parameters
    refine .bind (blind_modifyDraft fun h => { h with arity := congrArg (· + 1) h.arity }) fun _ => ?_
    refine .reads (fun c => ?_) fun h => by rw [h.draft.arity]
    dsimp only
    infer_instance

instance (kind : FunctionKind) : Blind (functionBody decl fuel kind) := by
  have hclosing := blind_closing
  unfold functionBody
  refine .bind inferInstance fun _ => .bind inferInstance fun _ => .bind inferInstance fun _ =>
    .bind inferInstance fun _ => ?_
  -- what stands after the parameters
  have hbody : Blind (do
      consume .rightParen .rightParenAfterParameters
      consume .leftBrace .leftBraceBeforeFunctionBody
      block decl fuel
      let d ← endFunction
      let h ← alloc (.function d.function)
      emitClosure h d.captures : Compile Unit) :=
    .bind inferInstance fun _ => .bind inferInstance fun _ => .bind inferInstance fun _ => hclosing
  dsimp only
  split
  · exact .bind inferInstance fun _ => hbody
  · exact hbody

instance : Blind (funDeclaration decl fuel) := inferInstanceAs (Blind (_ >>= _))

instance : Blind (method decl fuel) := inferInstanceAs (Blind (_ >>= _))

instance (name : String) : Blind (superclass name) := by
  have hclasses : Blind (modify fun c => { c with
      classes := { hasSuperclass := true } :: c.classes.drop 1 } : Compile Unit) :=
    blind_modify fun h => { h with classes := congrArg (fun l => _ :: l.drop 1) h.classes }
  unfold superclass
  dsimp only
  infer_instance

instance (name : String) : Blind (classBody decl fuel name) := by
  have hclasses : Blind (modify fun c => { c with classes := c.classes.drop 1 } : Compile Unit) :=
    blind_modify fun h => { h with classes := congrArg (List.drop 1) h.classes }
  have hend : Blind (do
      let scope := (← get).classes.head?
      modify fun c => { c with classes := c.classes.drop 1 }
      if scope.any (·.hasSuperclass) then endScope : Compile Unit) :=
    .reads (fun c => inferInstance) fun h => by rw [h.classes]
  unfold classBody
  infer_instance

instance : Blind (classDeclaration decl fuel) := by
  have hclasses : Blind (modify fun c => { c with classes := {} :: c.classes } : Compile Unit) :=
    blind_modify fun h => { h with classes := congrArg (List.cons _) h.classes }
  unfold classDeclaration
  dsimp only
  infer_instance

instance : Blind (declarationRule expr stmt decl fuel) := by
  have hend : Blind (do if (← get).panicking then synchronize fuel : Compile Unit) :=
    .reads (fun c => inferInstance) fun h => by rw [h.panicking]
  unfold declarationRule
  dsimp only
  infer_instance

end Rules

/-- Statements and declarations are tied together by their number of steps. -/
theorem blind_statement_declaration (n : Nat) : Blind (statement n) ∧ Blind (declaration n) := by
  induction n with
  | zero => exact ⟨inferInstanceAs (Blind (pure ())), inferInstanceAs (Blind (pure ()))⟩
  | succ n ih =>
    obtain ⟨hs, hd⟩ := ih
    exact ⟨inferInstanceAs (Blind (statementRule (expression n) (statement n) (declaration n) n)),
      inferInstanceAs (Blind (declarationRule (expression n) (statement n) (declaration n) n))⟩

instance (n : Nat) : Blind (statement n) := (blind_statement_declaration n).1

instance (n : Nat) : Blind (declaration n) := (blind_statement_declaration n).2

instance (fuel : Nat) : Blind (script fuel) := by
  unfold script
  infer_instance

end Compile

/-! ## Whole sources -/

/-- The same errors, or paired functions. -/
inductive SameResult (R : Pairing) (heap heap' : Heap) :
    Except (Array CompileError) Handle → Except (Array CompileError) Handle → Prop
  | error (errors : Array CompileError) : SameResult R heap heap' (.error errors) (.error errors)
  | ok {f f' : Handle} : R f f' → heap.kind? f = some .function → heap'.kind? f' = some .function →
    SameResult R heap heap' (.ok f) (.ok f')

/-- What two compilations of a source come to. -/
structure Compiled (R S : Pairing) (roots roots' : List Handle) (heap heap' : Heap)
    (p p' : Except (Array CompileError) Handle × Heap) : Prop where
  result : SameResult S p.2 p'.2 p.1 p'.1
  carries : Heap.Carries R S roots roots' heap heap' p.2 p'.2
  healthy : p.2.Healthy
  healthy' : p'.2.Healthy

variable {R : Pairing} {heap heap' : Heap}

/-- The states before the first token. -/
theorem start_twin (h : heap.Twin R heap') (hh : heap.Healthy) (hh' : heap'.Healthy)
    (source : String) (roots roots' : Thunk (List Handle)) :
    (Compiler.start source heap roots).Twin ⟨R, heap, heap', roots, roots'⟩ R
      (Compiler.start source heap' roots') where
  rest := rfl
  current := rfl
  previous := rfl
  panicking := rfl
  errors := rfl
  classes := rfl
  roots := rfl
  roots' := rfl
  carries := h.carries _ _
  healthy := hh
  healthy' := hh'
  draft := ⟨rfl, .none, rfl, ⟨rfl, rfl, .nil⟩, rfl, rfl, rfl, rfl⟩
  enclosing := .nil

theorem parse_eq (fuel : Nat) (c : Compiler) :
    Compile.parse fuel c = Compile.endFunction (Compile.script fuel c).2 := rfl

/-- **The same errors are found, or paired functions are made.** -/
theorem compile_twin (h : heap.Twin R heap') (hh : heap.Healthy) (hh' : heap'.Healthy)
    (source : String) (roots roots' : Thunk (List Handle)) :
    ∃ S, Compiled R S roots.get roots'.get heap heap' (compile source heap roots)
      (compile source heap' roots') := by
  have hstart := start_twin h hh hh' source roots roots'
  rw [compile_eq, compile_eq]
  dsimp only
  rw [← hstart.rest, parse_eq, parse_eq]
  obtain ⟨-, S, hscript⟩ := Compile.Blind.agree
    (x := Compile.script (Compiler.fuel (Compiler.start source heap roots).rest.length)) hstart
  obtain ⟨T, hd, hend⟩ := Compile.endFunction_twin hscript
  generalize Compile.endFunction (Compile.script _ (Compiler.start source heap roots)).2 = p
    at hd hend ⊢
  generalize Compile.endFunction (Compile.script _ (Compiler.start source heap' roots')).2 = p'
    at hd hend ⊢
  obtain ⟨d, c⟩ := p
  obtain ⟨d', c'⟩ := p'
  dsimp only at hd hend ⊢
  rw [hend.errors]
  have hheap := hend.carries.twin
  split
  · obtain ⟨U, hxy, hcarries⟩ := hheap.alloc roots roots' (.function hd.function)
      (by simp [Object.kind])
    have hnew := (Heap.alloc_allocates hheap.tidy roots (.function d.function)).new
    have hnew' := (Heap.alloc_allocates hheap.tidy' roots' (.function d'.function)).new
    refine ⟨U, .ok hxy (Heap.kind?_of_cell? hnew) (Heap.kind?_of_cell? hnew'), ?_, ?_, ?_⟩
    · exact hend.carries.trans hcarries (fun _ hr => List.mem_append_right _ hr)
        fun _ hr => List.mem_append_right _ hr
    · exact hend.healthy.alloc roots (by simp [Object.kind]) (fun r hr => hd.contains hheap hr) hd.fit
    · exact hend.healthy'.alloc roots' (by simp [Object.kind]) (fun r hr => hd.contains' hheap hr)
        (hd.fit' hheap)
  · exact ⟨T, .error _, hend.carries, hend.healthy, hend.healthy'⟩

/-! ## One heap -/

namespace Heap

/-- The strings of a heap are paired with themselves. -/
theorem Healthy.twin (hh : heap.Healthy) :
    heap.Twin (fun x y => x = y ∧ heap.IsString x) heap where
  tidy := hh.tidy
  tidy' := hh.tidy
  interned := hh.interned
  interned' := hh.interned
  unique := ⟨fun _ _ _ h h' => h.1.trans h'.1.symm, fun _ _ _ h h' => h.1.symm.trans h'.1⟩
  objects := by
    rintro x _ ⟨rfl, text, bytes, hc⟩
    exact ⟨_, _, hc, hc, .string text⟩
  strings hx hy := by
    obtain ⟨text, bytes, hc, -⟩ := (hasContents_iff _ _ _).1 hx
    exact ⟨hh.interned.unique _ _ _ hx hy, text, bytes, hc⟩

/-- **A compilation keeps the heap healthy**, and what can be reached from the roots. -/
theorem Healthy.compile (hh : heap.Healthy) (source : String) (roots : Thunk (List Handle)) :
    (compile source heap roots).2.Healthy ∧ heap.Keeps roots.get (compile source heap roots).2 ∧
      ∀ f, (compile source heap roots).1 = .ok f →
        (compile source heap roots).2.kind? f = some .function := by
  obtain ⟨S, hcompiled⟩ := compile_twin hh.twin hh hh source roots roots
  refine ⟨hcompiled.healthy, hcompiled.carries.kept, fun f hf => ?_⟩
  cases hf ▸ hcompiled.result with
  | ok _ hkind _ => exact hkind

end Heap

end LoxMachine
