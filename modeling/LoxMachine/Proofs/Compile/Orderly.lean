import LoxMachine.Compile
import LoxMachine.Proofs.Heap.Allocation

/-!
# What every action of the compiler keeps

* `Heap.Allots roots heap heap'`: the heap has changed only by interning strings and making
  functions, and whatever can be reached from `roots` was kept alive by that.
* `Compiler.Precedes`: a later state of a compilation. Errors are never taken back, the roots of
  the caller stay, and the heap has changed as above.
* `Compile.Orderly` says that an action leads to later states. Its instances go through all actions
  of the compiler.
* `Compile.Ends x c Q`: if the action `x` ends without errors from the state `c`, the result and
  the state it ends with satisfy `Q`. Errors are never taken back, so such a run can be followed
  from state to state as if there were no errors: `Ends.bind` is its rule.
-/

namespace LoxMachine

/-- A heap in which strings were interned and functions made, while what can be reached from
`roots` was kept. -/
inductive Heap.Allots (roots : List Handle) (heap : Heap) : Heap → Prop
  | refl : Allots roots heap heap
  | intern {mid : Heap} {rs : Thunk (List Handle)} (s : String) : Allots roots heap mid →
      roots ⊆ rs.get → Allots roots heap (mid.intern rs s).2
  | function {mid : Heap} {rs : Thunk (List Handle)} (f : Function) : Allots roots heap mid →
      roots ⊆ rs.get → Allots roots heap (mid.alloc rs (.function f)).2
  | record {mid : Heap} (e : Event) : Allots roots heap mid → Allots roots heap (mid.record e)

theorem Heap.Allots.trans {roots : List Handle} {heap mid heap' : Heap}
    (h : heap.Allots roots mid) (h' : mid.Allots roots heap') : heap.Allots roots heap' := by
  induction h' with
  | refl => exact h
  | intern s _ hsub ih => exact .intern s ih hsub
  | function f _ hsub ih => exact .function f ih hsub
  | record e _ ih => exact .record e ih

/-- The state `c'` comes after `c`. -/
structure Compiler.Precedes (c c' : Compiler) : Prop where
  errors : c'.errors = #[] → c.errors = #[]
  roots : c'.roots = c.roots
  allots : c.heap.Allots c.roots.get c'.heap

theorem Compiler.Precedes.refl (c : Compiler) : c.Precedes c := ⟨id, rfl, .refl⟩

theorem Compiler.Precedes.trans {c₁ c₂ c₃ : Compiler} (h : c₁.Precedes c₂) (h' : c₂.Precedes c₃) :
    c₁.Precedes c₃ := by
  refine ⟨h.errors ∘ h'.errors, h'.roots.trans h.roots, h.allots.trans ?_⟩
  rw [← h.roots]
  exact h'.allots

namespace Compile

/-- An action that leads to later states. -/
class Orderly {α : Type} (x : Compile α) : Prop where
  precedes : ∀ c : Compiler, c.Precedes (x c).2

variable {α β : Type}

/-! ## Combinations -/

instance (a : α) : Orderly (pure a : Compile α) := ⟨.refl⟩

instance : Orderly (get : Compile Compiler) := ⟨.refl⟩

theorem Orderly.bind {x : Compile α} {f : α → Compile β} (hx : Orderly x) (hf : ∀ a, Orderly (f a)) :
    Orderly (x >>= f) :=
  ⟨fun c => (hx.precedes c).trans ((hf (x c).1).precedes _)⟩

instance (x : Compile α) (f : α → Compile β) [hx : Orderly x] [hf : ∀ a, Orderly (f a)] :
    Orderly (x >>= f) := hx.bind hf

instance (p : Prop) [Decidable p] (x y : Compile α) [Orderly x] [Orderly y] :
    Orderly (if p then x else y) := by
  split <;> infer_instance

/-- A change of the state that concerns neither errors nor the heap. -/
theorem orderly_modify {f : Compiler → Compiler} (herrors : ∀ c, (f c).errors = c.errors)
    (hroots : ∀ c, (f c).roots = c.roots) (hheap : ∀ c, (f c).heap = c.heap) :
    Orderly (modify f : Compile Unit) := by
  refine ⟨fun c => ⟨fun h => by rw [← herrors c]; exact h, hroots c, ?_⟩⟩
  change c.heap.Allots c.roots.get (f c).heap
  rw [hheap c]
  exact .refl

instance (l : List α) (f : α → Compile Unit) [∀ a, Orderly (f a)] : Orderly (l.forM f) := by
  induction l with
  | nil => exact inferInstanceAs (Orderly (pure ()))
  | cons a l ih => exact inferInstanceAs (Orderly (f a >>= fun _ => l.forM f))

instance (l : Array α) (f : α → Compile Unit) [∀ a, Orderly (f a)] : Orderly (l.forM f) := by
  have hlist : Array.forM f l = l.toList.forM f := List.forM_toArray' l.toList f rfl
  rw [hlist]
  infer_instance

instance (condition : Compile Bool) (body : Compile Unit) (n : Nat) [Orderly condition]
    [Orderly body] : Orderly (loop condition body n) := by
  induction n with
  | zero => exact inferInstanceAs (Orderly (pure ()))
  | succ n ih =>
    unfold loop
    infer_instance

/-! ## Basic actions -/

theorem precedes_errorAt (c : Compiler) (t : Token) (d : Diagnosis) :
    c.Precedes (c.errorAt t d) := by
  unfold Compiler.errorAt
  split
  · exact .refl c
  · exact ⟨fun h => by simp at h, rfl, .refl⟩

theorem precedes_pull (ts : List Token) (c : Compiler) : c.Precedes (c.pull ts) := by
  induction ts generalizing c with
  | nil => exact ⟨id, rfl, .refl⟩
  | cons t ts ih =>
    unfold Compiler.pull
    split
    · exact (precedes_errorAt c t _).trans (ih _)
    · exact ⟨id, rfl, .refl⟩
    · exact ⟨id, rfl, .refl⟩

instance (d : Diagnosis) : Orderly (error d) := ⟨fun c => precedes_errorAt c _ d⟩

instance (d : Diagnosis) : Orderly (errorAtCurrent d) := ⟨fun c => precedes_errorAt c _ d⟩

instance : Orderly advance := by
  refine ⟨fun c => ?_⟩
  have hprevious : c.Precedes { c with previous := c.current } := ⟨id, rfl, .refl⟩
  exact hprevious.trans (precedes_pull c.rest _)

instance (kind : TokenKind) : Orderly (check kind) := inferInstanceAs (Orderly (_ >>= _))

instance (kind : TokenKind) : Orderly (accept kind) := inferInstanceAs (Orderly (_ >>= _))

instance (kind : TokenKind) (e : Expectation) : Orderly (consume kind e) :=
  inferInstanceAs (Orderly (_ >>= _))

instance : Orderly lexeme := inferInstanceAs (Orderly (_ >>= _))

instance (fuel : Nat) : Orderly (synchronize fuel) := by
  have := orderly_modify (f := fun c => { c with panicking := false }) (fun _ => rfl) (fun _ => rfl)
    fun _ => rfl
  unfold synchronize
  infer_instance

/-- The roots of the caller are among those of the compiler. -/
theorem roots_subset_handles (roots : Thunk (List Handle)) (d : Draft) (enclosing : List Draft) :
    roots.get ⊆ Compiler.handles roots d enclosing := List.subset_append_left _ _

instance (s : String) : Orderly (intern s) :=
  ⟨fun c => ⟨id, rfl, Heap.Allots.refl.intern s (roots_subset_handles c.roots c.draft c.enclosing)⟩⟩

instance (f : Function) : Orderly (alloc (.function f)) :=
  ⟨fun c => ⟨id, rfl, Heap.Allots.refl.function f
    (roots_subset_handles c.roots c.draft c.enclosing)⟩⟩

instance (f : Draft → Draft) : Orderly (modifyDraft f) := ⟨fun _ => ⟨id, rfl, .refl⟩⟩

instance (f : Chunk → Chunk) : Orderly (modifyChunk f) := ⟨fun _ => ⟨id, rfl, .refl⟩⟩

instance : Orderly codeSize := inferInstanceAs (Orderly (_ >>= _))

instance (byte : UInt8) : Orderly (emitByte byte) := inferInstanceAs (Orderly (_ >>= _))

instance (op : Opcode) : Orderly (emit op) := inferInstanceAs (Orderly (emitByte _))

instance (op : Opcode) (byte : UInt8) : Orderly (emitWith op byte) :=
  inferInstanceAs (Orderly (_ >>= _))

instance (op : Opcode) : Orderly (emitJump op) := inferInstanceAs (Orderly (_ >>= _))

instance (offset : Nat) : Orderly (patchJump offset) := by
  unfold patchJump
  dsimp only
  infer_instance

instance (start : Nat) : Orderly (emitLoop start) := by
  unfold emitLoop
  dsimp only
  infer_instance

instance (v : Value) : Orderly (makeConstant v) := by
  unfold makeConstant
  dsimp only
  infer_instance

instance (v : Value) : Orderly (emitConstant v) := inferInstanceAs (Orderly (_ >>= _))

instance (name : String) : Orderly (nameConstant name) := inferInstanceAs (Orderly (_ >>= _))

instance : Orderly emitReturn := by
  unfold emitReturn
  dsimp only
  infer_instance

instance (kind : FunctionKind) (name : Handle) : Orderly (modify fun c => { c with
    draft := .start kind (some name), enclosing := c.draft :: c.enclosing } : Compile Unit) :=
  orderly_modify (fun _ => rfl) (fun _ => rfl) fun _ => rfl

instance (kind : FunctionKind) : Orderly (beginFunction kind) := inferInstanceAs (Orderly (_ >>= _))

instance (d : Draft) : Orderly (reportListing d) := by
  refine ⟨fun c => ?_⟩
  change c.Precedes (if _ then _ else _)
  split
  · split
    · exact ⟨id, rfl, .record _ .refl⟩
    · exact .refl c
  · exact .refl c

instance : Orderly (modify fun c => match c.enclosing with
    | [] => { c with draft := .start .script none }
    | d :: enclosing => { c with draft := d, enclosing } : Compile Unit) :=
  orderly_modify (fun c => by split <;> rfl) (fun c => by split <;> rfl) fun c => by split <;> rfl

instance : Orderly endFunction := inferInstanceAs (Orderly (_ >>= _))

/-! ## Variables -/

instance : Orderly beginScope := inferInstanceAs (Orderly (modifyDraft _))

instance : Orderly endScope := by
  unfold endScope
  dsimp only
  infer_instance

instance (name : String) : Orderly (addLocal name) := inferInstanceAs (Orderly (_ >>= _))

instance : Orderly declareVariable := by
  unfold declareVariable
  dsimp only
  infer_instance

instance (e : Expectation) : Orderly (parseVariable e) := inferInstanceAs (Orderly (_ >>= _))

instance : Orderly markInitialized := inferInstanceAs (Orderly (modifyDraft _))

instance (global : UInt8) : Orderly (defineVariable global) := inferInstanceAs (Orderly (_ >>= _))

instance (draft : Draft) (enclosing : List Draft) :
    Orderly (modify fun c => { c with draft, enclosing } : Compile Unit) :=
  orderly_modify (fun _ => rfl) (fun _ => rfl) fun _ => rfl

instance (name : String) : Orderly (access name) := by
  have hsome : ∀ c : Compiler, Orderly (match Draft.findLocal name c.draft.locals with
    | some (slot, l) => do
      l.useFaults.forM error
      return (⟨.getLocal, .setLocal, UInt8.ofNat slot⟩ : Access)
    | none =>
      match Draft.resolve name c.draft c.enclosing with
      | some r => do
        modify fun c => { c with draft := r.draft, enclosing := r.enclosing }
        r.faults.forM error
        return ⟨.getUpvalue, .setUpvalue, r.index⟩
      | none => return ⟨.getGlobal, .setGlobal, ← nameConstant name⟩) := by
    intro c
    split
    · infer_instance
    · split <;> infer_instance
  unfold access
  infer_instance

instance (name : String) : Orderly (readVariable name) := inferInstanceAs (Orderly (_ >>= _))

/-! ## Expressions -/

set_option synthInstance.maxSize 4096

section Rules

variable (operand : Precedence → Compile Unit) [∀ p, Orderly (operand p)] (fuel : Nat)

instance : Orderly (grouping operand) := inferInstanceAs (Orderly (_ >>= _))

instance (operator : TokenKind) : Orderly (unary operand operator) :=
  inferInstanceAs (Orderly (_ >>= _))

instance (operator : TokenKind) : Orderly (binary operand operator) :=
  inferInstanceAs (Orderly (_ >>= _))

instance : Orderly number := by
  have hmatch : ∀ s : String, Orderly (match Number.ofLiteral? s with
    | some n => emitConstant (.number n)
    | none => error .invalidNumber) := fun s => by split <;> infer_instance
  unfold number
  infer_instance

instance : Orderly string := inferInstanceAs (Orderly (_ >>= _))

instance (canAssign : Bool) : Orderly (name operand canAssign) := by
  unfold name
  infer_instance

instance : Orderly this := by
  unfold this
  infer_instance

instance (n count : Nat) : Orderly (argumentsFrom operand n count) := by
  induction n generalizing count with
  | zero => exact inferInstanceAs (Orderly (pure _))
  | succ n ih =>
    unfold argumentsFrom
    dsimp only
    infer_instance

instance : Orderly (arguments operand fuel) := by
  unfold arguments
  dsimp only
  infer_instance

instance : Orderly (super operand fuel) := by
  unfold super
  refine Orderly.bind inferInstance fun c => ?_
  dsimp only
  split <;> infer_instance

instance : Orderly (call operand fuel) := inferInstanceAs (Orderly (_ >>= _))

instance (canAssign : Bool) : Orderly (property operand fuel canAssign) := by
  unfold property
  infer_instance

instance : Orderly (conjunction operand) := inferInstanceAs (Orderly (_ >>= _))

instance : Orderly (disjunction operand) := inferInstanceAs (Orderly (_ >>= _))

instance (kind : TokenKind) (canAssign : Bool) :
    Orderly (startExpression operand fuel kind canAssign) := by
  unfold startExpression
  split <;> infer_instance

instance (kind : TokenKind) (canAssign : Bool) :
    Orderly (continueExpression operand fuel kind canAssign) := by
  unfold continueExpression
  split <;> infer_instance

end Rules

instance (n : Nat) (p : Precedence) : Orderly (parsePrecedence n p) := by
  induction n generalizing p with
  | zero => exact inferInstanceAs (Orderly (pure ()))
  | succ n ih =>
    unfold parsePrecedence
    dsimp only
    infer_instance

instance (fuel : Nat) : Orderly (expression fuel) := inferInstanceAs (Orderly (parsePrecedence _ _))

/-! ## Statements and declarations -/

section Rules

variable (expr stmt decl : Compile Unit) [Orderly expr] [Orderly stmt] [Orderly decl] (fuel : Nat)

instance : Orderly (block decl fuel) := by
  unfold block
  infer_instance

instance : Orderly (printStatement expr) := inferInstanceAs (Orderly (_ >>= _))

instance : Orderly (expressionStatement expr) := inferInstanceAs (Orderly (_ >>= _))

instance : Orderly (returnStatement expr) := by
  unfold returnStatement
  dsimp only
  infer_instance

instance : Orderly (ifStatement expr stmt) := by
  unfold ifStatement
  dsimp only
  infer_instance

instance : Orderly (whileStatement expr stmt) := inferInstanceAs (Orderly (_ >>= _))

instance : Orderly (varDeclaration expr) := by
  unfold varDeclaration
  dsimp only
  infer_instance

instance : Orderly (forInitializer expr) := by
  unfold forInitializer
  infer_instance

instance : Orderly (forCondition expr) := by
  unfold forCondition
  infer_instance

instance (start : Nat) : Orderly (forIncrement expr start) := by
  unfold forIncrement
  infer_instance

/-- The end of a `for` loop, which depends on whether it has a condition. -/
theorem orderly_forEnd (leave : Option Nat) : Orderly (match leave with
    | some onFalse => do
      patchJump onFalse
      let _ ← emit .pop
      endScope
    | _ => endScope) := by
  split <;> infer_instance

instance : Orderly (forStatement expr stmt) := by
  have := orderly_forEnd
  unfold forStatement
  dsimp only
  infer_instance

instance : Orderly (statementRule expr stmt decl fuel) := by
  unfold statementRule
  infer_instance

instance (n : Nat) : Orderly (parameters n) := by
  induction n with
  | zero => exact inferInstanceAs (Orderly (pure ()))
  | succ n ih =>
    unfold parameters
    dsimp only
    infer_instance

instance (kind : FunctionKind) : Orderly (functionBody decl fuel kind) := by
  unfold functionBody
  refine Orderly.bind inferInstance fun _ => Orderly.bind inferInstance fun _ =>
    Orderly.bind inferInstance fun _ => Orderly.bind inferInstance fun _ => ?_
  dsimp only
  split <;> infer_instance

instance : Orderly (funDeclaration decl fuel) := inferInstanceAs (Orderly (_ >>= _))

instance : Orderly (method decl fuel) := inferInstanceAs (Orderly (_ >>= _))

instance (scope : ClassScope) :
    Orderly (modify fun c => { c with classes := scope :: c.classes } : Compile Unit) :=
  orderly_modify (fun _ => rfl) (fun _ => rfl) fun _ => rfl

instance (scope : ClassScope) :
    Orderly (modify fun c => { c with classes := scope :: c.classes.drop 1 } : Compile Unit) :=
  orderly_modify (fun _ => rfl) (fun _ => rfl) fun _ => rfl

instance : Orderly (modify fun c => { c with classes := c.classes.drop 1 } : Compile Unit) :=
  orderly_modify (fun _ => rfl) (fun _ => rfl) fun _ => rfl

instance (name : String) : Orderly (superclass name) := by
  unfold superclass
  dsimp only
  infer_instance

instance (name : String) : Orderly (classBody decl fuel name) := by
  unfold classBody
  dsimp only
  infer_instance

instance : Orderly (classDeclaration decl fuel) := by
  unfold classDeclaration
  dsimp only
  infer_instance

instance : Orderly (declarationRule expr stmt decl fuel) := by
  unfold declarationRule
  dsimp only
  infer_instance

end Rules

/-- Statements and declarations are tied together by their number of steps. -/
theorem orderly_statement_declaration (n : Nat) : Orderly (statement n) ∧ Orderly (declaration n) := by
  induction n with
  | zero => exact ⟨inferInstanceAs (Orderly (pure ())), inferInstanceAs (Orderly (pure ()))⟩
  | succ n ih =>
    obtain ⟨hs, hd⟩ := ih
    exact ⟨inferInstanceAs (Orderly (statementRule (expression n) (statement n) (declaration n) n)),
      inferInstanceAs (Orderly (declarationRule (expression n) (statement n) (declaration n) n))⟩

instance (n : Nat) : Orderly (statement n) := (orderly_statement_declaration n).1

instance (n : Nat) : Orderly (declaration n) := (orderly_statement_declaration n).2

instance (fuel : Nat) : Orderly (script fuel) := by
  unfold script
  infer_instance

/-! ## Following an action without errors -/

/-- If the action ends without errors, `Q` holds of its result and of the state it ends with. -/
def Ends (x : Compile α) (c : Compiler) (Q : α → Compiler → Prop) : Prop :=
  (x c).2.errors = #[] → Q (x c).1 (x c).2

namespace Ends

variable {x : Compile α} {c : Compiler} {Q Q' : α → Compiler → Prop}

theorem mono (h : Ends x c Q) (hQ : ∀ a c', Q a c' → Q' a c') : Ends x c Q' :=
  fun herr => hQ _ _ (h herr)

theorem bind {f : α → Compile β} {R : β → Compiler → Prop} [∀ a, Orderly (f a)] (h : Ends x c Q)
    (hf : ∀ a c', Q a c' → Ends (f a) c' R) : Ends (x >>= f) c R := by
  intro herr
  exact hf _ _ (h ((Orderly.precedes (x := f (x c).1) _).errors herr)) herr

end Ends

end Compile

end LoxMachine
