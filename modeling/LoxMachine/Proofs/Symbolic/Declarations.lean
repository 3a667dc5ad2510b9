import LoxMachine.Proofs.Symbolic.Functions

/-!
# The code of declarations

* `runClass_emits`: a class, with its superclass in a variable of a scope around the methods.
* `Statement.run_emits`, `Declaration.run_emits` and `Routine.run_emits`: compiling along a tree writes its
  code.
* `Parses.spells`: a source that compiles is compiled to the code of its program.
-/

namespace LoxMachine

open Compile Symbolic

set_option synthInstance.maxSize 4096

/-! ## Classes -/

section Classes

variable {c : Compiler} {σ : Setting} {name : String} {methods : Compile Unit} {k : Nat} {a : Code}
  {ps : List (Nat × Nat)}

theorem modifyClasses_emits (hc : c.Ongoing σ) (g : Compiler → List ClassScope) :
    Emits (modify fun c => { c with classes := g c }) c [] []
      { σ with classes := (g c).map ClassScope.hasSuperclass } fun _ _ => True :=
  .quiet hc (modifyClasses_costs hc.toStands g) rfl rfl rfl rfl

/-- The setting of the methods of a class with a superclass, before the class is known to have one. -/
theorem methodsSetting_some (σ : Setting) (name s : String) :
    methodsSetting name (some s) σ =
      { ((σ.define name).within false).enter.define "super" with classes := true :: σ.classes } := by
  rw [methodsSetting, Setting.within, Setting.classes_define]
  exact congrArg (Setting.mk _ _) (congrArg (true :: ·) (Setting.classes_define σ name))

theorem runSuperclass_emits (hc : c.Ongoing ((σ.define name).within false)) (s : String) :
    Emits (runSuperclass name s) c
      [.get ((σ.define name).variable s), .get ((methodsSetting name (some s) σ).variable name), .op .inherit]
      (((σ.define name).access s).captured ++ ((methodsSetting name (some s) σ).access name).captured)
      (methodsSetting name (some s) σ) fun _ _ => True := by
  set τ := (σ.define name).within false with hτ
  have hinside : τ.enter.here.depth ≠ 0 := Nat.succ_ne_zero _
  have hdefining : τ.enter.defining "super" = [] := if_neg hinside
  have hdefine : ∀ c₁ : Compiler, c₁.Ongoing { τ.enter with here := τ.enter.here.push "super" none } →
      Emits (defineVariable 0) c₁ [] [] (τ.enter.define "super") fun _ _ => True := by
    intro c₁ hc₁
    rw [← hdefining]
    refine defineVariable_emits none ?_ fun h => absurd h hinside
    rwa [if_neg hinside]
  have hmark : ∀ c₁ : Compiler, c₁.Ongoing (τ.enter.define "super") →
      Emits (modify fun c => { c with classes := { hasSuperclass := true } :: c.classes.drop 1 }) c₁ [] []
        (methodsSetting name (some s) σ) fun _ _ => True := by
    intro c₁ hc₁
    have hclasses : (({ hasSuperclass := true } :: c₁.classes.drop 1 : List ClassScope).map
        ClassScope.hasSuperclass) = true :: σ.classes := by
      rw [List.map_cons, List.map_drop, hc₁.classes, Setting.classes_define]
      exact congrArg (true :: ·) (Setting.classes_define σ name)
    rw [methodsSetting_some, ← hclasses]
    exact modifyClasses_emits hc₁ _
  have hvariable :
      (methodsSetting name (some s) σ).variable name = (τ.enter.define "super").variable name := by
    rw [methodsSetting_some]
    rfl
  have haccess : (methodsSetting name (some s) σ).access name = (τ.enter.define "super").access name := by
    rw [methodsSetting_some]
    rfl
  rw [hvariable, haccess]
  refine .congr (.bind (advance_emits hc) fun _ _ hc₁ _ _ => .bind (advance_emits hc₁) fun _ _ hc₂ _ _ =>
    .bind (readVariable_emits hc₂ s) fun _ _ hc₃ _ _ => .bind (errorIf_emits hc₃ _ _)
    fun _ _ hc₄ _ _ => .bind (beginScope_emits hc₄) fun _ _ hc₅ _ _ => .bind (addLocal_emits hc₅ "super")
    fun _ _ hc₆ _ _ => .bind (hdefine _ hc₆) fun _ _ hc₇ _ _ => .bind (readVariable_emits hc₇ name)
    fun _ _ hc₈ _ _ => .bind (emit_emits hc₈ .inherit) fun _ _ hc₉ _ _ => hmark _ hc₉) ?_ ?_
  · simp only [List.nil_append, List.append_nil, List.cons_append]
    rfl
  · simp only [List.nil_append, List.append_nil]
    rfl

/-- The point after the methods of a class, where the superclass is still in its variable. -/
def Setting.shutting (σ : Setting) (superclass : Option String) : Setting :=
  superclass.elim σ fun _ => σ.enter.define "super"

theorem classes_methods (σ : Setting) (name : String) (superclass : Option String) :
    (methodsSetting name superclass σ).classes = superclass.isSome :: σ.classes := by
  cases superclass with
  | none => exact congrArg (false :: ·) (Setting.classes_define σ name)
  | some s => rw [methodsSetting_some]; rfl

/-- A class between its declaration and the end of the scope of its superclass. -/
def insideClass (name : String) (superclass : Option String) (methods : Compile Unit) :
    Compile (Option ClassScope) := do
  modify fun c => { c with classes := {} :: c.classes }
  superclass.elim (pure ()) (runSuperclass name)
  readVariable name
  advance
  methods
  advance
  emit .pop
  let scope := (← get).classes.head?
  modify fun c => { c with classes := c.classes.drop 1 }
  return scope

theorem runClass_inside (name : String) (superclass : Option String) (methods : Compile Unit) :
    runClass name superclass methods = (do
      advance
      let constant ← nameConstant name
      declareName name
      emitWith .cls constant
      defineVariable constant
      let scope ← insideClass name superclass methods
      if scope.any (·.hasSuperclass) then endScope) := by
  rw [runClass_eq]
  simp only [insideClass, leaveClass, bind_assoc, pure_bind]

theorem reads_elim_runSuperclass (name : String) (superclass : Option String) :
    Reads (superclass.elim (pure ()) (runSuperclass name)) (superclass.elim 0 fun _ => 2) := by
  cases superclass with
  | none => exact inferInstanceAs (Reads (pure ()) 0)
  | some s => exact reads_runSuperclass name s

theorem reads_insideClass (name : String) (superclass : Option String) (methods : Compile Unit)
    [Reads methods k] :
    Reads (insideClass name superclass methods) (superclass.elim 0 (fun _ => 2) + (1 + (k + 1))) := by
  have := reads_elim_runSuperclass name superclass
  unfold insideClass
  exact Reads.of_eq inferInstance (by omega)

theorem insideClass_emits [Reads methods k] (hc : c.Ongoing (σ.define name)) (superclass : Option String)
    (hmethods : ∀ c₁ : Compiler, c₁.Ongoing (methodsSetting name superclass σ) →
      Emits methods c₁ a ps (methodsSetting name superclass σ) fun _ _ => True) :
    Emits (insideClass name superclass methods) c
      ((superclass.elim [] fun s => [.get ((σ.define name).variable s),
        .get ((methodsSetting name superclass σ).variable name), .op .inherit]) ++
        (.get ((methodsSetting name superclass σ).variable name) :: (a ++ [.op .pop])))
      (classUses name superclass σ ++ ps) ((σ.define name).shutting superclass)
      fun scope _ => scope.any (·.hasSuperclass) = superclass.isSome := by
  have henter : Emits (modify fun c => { c with classes := {} :: c.classes }) c [] []
      ((σ.define name).within false) fun _ _ => True := by
    have hend : (σ.define name).within false = { σ.define name with
        classes := ({} :: c.classes : List ClassScope).map ClassScope.hasSuperclass } := by
      rw [List.map_cons, hc.classes]
      rfl
    rw [hend]
    exact modifyClasses_emits hc _
  have hsuperclass : ∀ c₁ : Compiler, c₁.Ongoing ((σ.define name).within false) →
      Emits (superclass.elim (pure ()) (runSuperclass name)) c₁
        (superclass.elim [] fun s => [.get ((σ.define name).variable s),
          .get ((methodsSetting name superclass σ).variable name), .op .inherit])
        (superclass.elim [] fun s => ((σ.define name).access s).captured ++
          ((methodsSetting name superclass σ).access name).captured)
        (methodsSetting name superclass σ) fun _ _ => True := by
    intro c₁ hc₁
    cases superclass with
    | none => exact .pure hc₁ trivial
    | some s => exact runSuperclass_emits hc₁ s
  have hleave : ∀ c₁ : Compiler, c₁.Ongoing (methodsSetting name superclass σ) → Emits (do
      let scope := (← get).classes.head?
      modify fun c => { c with classes := c.classes.drop 1 }
      return scope) c₁ [] [] ((σ.define name).shutting superclass)
        fun scope _ => scope.any (·.hasSuperclass) = superclass.isSome := by
    intro c₁ hc₁
    have hclasses := hc₁.classes.trans (classes_methods σ name superclass)
    have hend : (σ.define name).shutting superclass = { methodsSetting name superclass σ with
        classes := (c₁.classes.drop 1).map ClassScope.hasSuperclass } := by
      rw [List.map_drop, hclasses, List.drop_one, List.tail_cons]
      cases superclass with
      | none => exact congrArg (Setting.mk _ _) (Setting.classes_define σ name)
      | some s =>
        rw [methodsSetting_some]
        exact congrArg (Setting.mk _ _) (Setting.classes_define _ _)
    have hhead : c₁.classes.head?.any (·.hasSuperclass) = superclass.isSome := by
      cases hcons : c₁.classes with
      | nil =>
        rw [hcons] at hclasses
        cases hclasses
      | cons scope classes =>
        rw [hcons] at hclasses
        exact (List.cons.inj hclasses).1
    refine .known (r := c₁) rfl ?_
    rw [hend]
    exact .bind (modifyClasses_emits hc₁ _) fun _ _ hc₂ _ _ => .pure hc₂ hhead
  have := reads_elim_runSuperclass name superclass
  unfold insideClass
  refine .congr (.bind henter fun _ _ hc₁ _ _ => .bind (hsuperclass _ hc₁) fun _ _ hc₂ _ _ =>
    .bind (readVariable_emits hc₂ name) fun _ _ hc₃ _ _ => .bind (advance_emits hc₃) fun _ _ hc₄ _ _ =>
    .bind (hmethods _ hc₄) fun _ _ hc₅ _ _ => .bind (advance_emits hc₅) fun _ _ hc₆ _ _ =>
    .bind (emit_emits hc₆ .pop) fun _ c₇ hc₇ _ _ => hleave c₇ hc₇) ?_ ?_
  · simp
  · simp [classUses]

/-- **A class.** -/
theorem runClass_emits [Reads methods k] (hs : σ.Settled) (hc : c.Ongoing σ) (superclass : Option String)
    (hmethods : ∀ c₁ : Compiler, c₁.Ongoing (methodsSetting name superclass σ) →
      Emits methods c₁ a ps (methodsSetting name superclass σ) fun _ _ => True) :
    Emits (runClass name superclass methods) c
      (classCode name superclass σ ++ (a ++ (.op .pop :: superclass.elim [] fun _ =>
        (σ.define name).leave (methodsSetting name superclass σ) (classUses name superclass σ ++ ps))))
      (superclass.elim (classUses name superclass σ ++ ps) fun _ =>
        (σ.define name).remaining (classUses name superclass σ ++ ps))
      (σ.define name) fun _ _ => True := by
  have := reads_insideClass name superclass methods
  have hinner : (σ.define name).Encloses ((σ.define name).enter.define "super") :=
    (Setting.encloses_enter _).define "super"
  have hrest : ∀ c₁ : Compiler, c₁.Ongoing (σ.define name) → Emits (do
      let scope ← insideClass name superclass methods
      if scope.any (·.hasSuperclass) then endScope) c₁
      ((superclass.elim [] fun s => [.get ((σ.define name).variable s),
        .get ((methodsSetting name superclass σ).variable name), .op .inherit]) ++
        (.get ((methodsSetting name superclass σ).variable name) :: (a ++ (.op .pop ::
          superclass.elim [] fun _ => (σ.define name).leave (methodsSetting name superclass σ)
            (classUses name superclass σ ++ ps)))))
      (superclass.elim (classUses name superclass σ ++ ps) fun _ =>
        (σ.define name).remaining (classUses name superclass σ ++ ps))
      (σ.define name) fun _ _ => True := by
    intro c₁ hc₁
    refine Ends.next (insideClass_emits hc₁ superclass hmethods) fun scope c₂ h₂ => ?_
    obtain ⟨hc₂, hw₂, hscope⟩ := h₂
    rw [hscope]
    cases superclass with
    | none => exact fun _ => ⟨hc₂, hw₂, trivial⟩
    | some s =>
      refine Ends.mono (endScope_ends (hs.define name).here hinner hc₁ hw₂ hc₂) fun _ c₃ h₃ => ?_
      have hw₃ := h₃.2.1
      simp only [Option.elim_some, List.append_assoc, List.cons_append, List.nil_append] at hw₃ ⊢
      exact ⟨h₃.1, hw₃, trivial⟩
  rw [runClass_inside]
  refine .congr (.bind (advance_emits hc) fun _ _ hc₁ _ _ => .bind (nameConstant_emits hc₁ name)
    fun constant _ hc₂ _ hname => .bind (declareName_emits hc₂ name) fun _ _ hc₃ h₃ _ =>
    .bind (emitWith_emits hc₃ (.named .cls (hname.mono h₃.le))) fun _ _ hc₄ h₄ _ =>
    .bind (defineVariable_emits none hc₄ fun _ => hname.mono (h₃.le.trans h₄.le)) fun _ _ hc₅ _ _ =>
    hrest _ hc₅) ?_ ?_
  · simp [classCode]
  · simp

end Classes

/-! ## Settings -/

section Settings

variable {σ : Setting} {name : String}

theorem Declaration.receivers_after (d : Declaration) (hproper : ∀ t ∈ d.symbols, t.Proper) :
    (d.after σ).receivers = σ.receivers := by
  cases d with
  | statement s => rfl
  | var name value => exact Setting.receivers_define (proper_of_variable hproper).1
  | function f =>
    cases f with
    | mk name parameters body =>
      have hname : (Symbol.name name).Proper := hproper _ (by simp [Declaration.symbols, Routine.symbols])
      exact Setting.receivers_define hname
  | cls name superclass methods =>
    exact Setting.receivers_define (hproper _ (by simp [Declaration.symbols]))

theorem receivers_parameters (parameters : List String)
    (hproper : ∀ p ∈ parameters, (Symbol.name p).Proper) :
    (parameters.foldl Setting.define σ).receivers = σ.receivers := by
  induction parameters generalizing σ with
  | nil => rfl
  | cons p parameters ih =>
    obtain ⟨hp, hmore⟩ := List.forall_mem_cons.1 hproper
    exact (ih hmore).trans (Setting.receivers_define hp)

theorem mem_parameterSymbols {parameters : List String} {p : String} (hp : p ∈ parameters) :
    Symbol.name p ∈ parameterSymbols parameters := by
  cases parameters with
  | nil => cases hp
  | cons q more =>
    rcases List.mem_cons.1 hp with rfl | hp
    · exact List.mem_cons_self
    · exact List.mem_cons_of_mem _ (List.mem_flatMap.2 ⟨p, hp, by simp⟩)

theorem kind_parameters (parameters : List String) (σ : Setting) :
    (parameters.foldl Setting.define σ).here.kind = σ.here.kind := by
  induction parameters generalizing σ with
  | nil => rfl
  | cons p parameters ih => exact (ih _).trans (Setting.kind_define ..)

theorem Declaration.kind_afterList (body : List Declaration) (σ : Setting) :
    (Declaration.afterList body σ).here.kind = σ.here.kind := by
  induction body generalizing σ with
  | nil => rfl
  | cons d body ih =>
    refine (ih _).trans ?_
    cases d with
    | statement s => rfl
    | var name value | function f | cls name superclass methods => exact Setting.kind_define ..

end Settings

/-! ## Statements and declarations -/

mutual

/-- **Compiling along a statement writes its code.** -/
theorem Statement.run_emits : ∀ (s : Statement) {c : Compiler} {σ : Setting} {r : Receivers},
    (∀ t ∈ s.symbols, t.Proper) → σ.Settled → r = σ.receivers → c.Ongoing σ →
    Emits s.run c (s.code σ r) (s.uses σ) σ fun _ _ => True
  | .expression e, c, σ, r, _, _, hr, hc =>
    .congr (.bind (e.run_emits hr hc) fun _ _ hc₁ _ _ => .bind (advance_emits hc₁)
      fun _ _ hc₂ _ _ => emit_emits hc₂ .pop) (by simp [Statement.code]) (by simp [Statement.uses])
  | .print e, c, σ, r, _, _, hr, hc =>
    .congr (.bind (advance_emits hc) fun _ _ hc₁ _ _ => .bind (e.run_emits hr hc₁)
      fun _ _ hc₂ _ _ => .bind (advance_emits hc₂) fun _ _ hc₃ _ _ => emit_emits hc₃ .print)
      (by simp [Statement.code]) (by simp [Statement.uses])
  | .block body, c, σ, r, hproper, hs, hr, hc => by
    simp only [Statement.symbols, List.forall_mem_append, List.forall_mem_cons] at hproper
    exact .congr (.bind (advance_emits hc) fun _ _ hc₁ _ _ => runBlock_emits hs hc₁
      (Declaration.encloses_afterList (Setting.encloses_enter σ) body) fun _ hc₂ =>
      Declaration.runList_emits body hproper.2.1 hs.enter hr hc₂) (by simp [Statement.code])
      (by simp [Statement.uses])
  | .ifThen condition body, c, σ, r, hproper, hs, hr, hc => by
    simp only [Statement.symbols, List.forall_mem_append, List.forall_mem_cons] at hproper
    exact .congr (.bind (advance_emits hc) fun _ _ hc₁ _ _ => runIf_emits hr hc₁ condition
      fun _ hc₂ => body.run_emits hproper.2.2.2.2 hs hr hc₂) (by simp [Statement.code])
      (by simp [Statement.uses])
  | .ifThenElse condition body otherwise, c, σ, r, hproper, hs, hr, hc => by
    simp only [Statement.symbols, List.forall_mem_append, List.forall_mem_cons] at hproper
    exact .congr (.bind (advance_emits hc) fun _ _ hc₁ _ _ => runIfElse_emits hr hc₁ condition
      (fun _ hc₂ => body.run_emits hproper.2.2.2.2.1 hs hr hc₂)
      fun _ hc₂ => otherwise.run_emits hproper.2.2.2.2.2.2 hs hr hc₂) (by simp [Statement.code])
      (by simp [Statement.uses])
  | .whileLoop condition body, c, σ, r, hproper, hs, hr, hc => by
    simp only [Statement.symbols, List.forall_mem_append, List.forall_mem_cons] at hproper
    exact .congr (.bind (advance_emits hc) fun _ _ hc₁ _ _ => runWhile_emits hr hc₁ condition
      fun _ hc₂ => body.run_emits hproper.2.2.2.2 hs hr hc₂) (by simp [Statement.code])
      (by simp [Statement.uses])
  | .forLoop init condition increment body, c, σ, r, hproper, hs, hr, hc => by
    simp only [Statement.symbols, List.forall_mem_append, List.forall_mem_cons] at hproper
    obtain ⟨-, -, hinit, -, -, -, -, hbody⟩ := hproper
    exact .congr (.bind (advance_emits hc) fun _ _ hc₁ _ _ => runFor_emits hs hr hc₁ init hinit condition
      increment fun _ hc₂ => body.run_emits hbody (init.after_settled hs.enter)
        (hr.trans (init.receivers_after (σ := σ.enter) hinit).symm) hc₂) (by simp [Statement.code])
      (by simp [Statement.uses])
  | .ret value, c, σ, r, _, _, hr, hc =>
    .congr (.bind (advance_emits hc) fun _ _ hc₁ _ _ => runReturn_emits hr hc₁ value) (by simp)
      (by simp [Statement.uses])

/-- **Compiling along a declaration writes its code.** -/
theorem Declaration.run_emits : ∀ (d : Declaration) {c : Compiler} {σ : Setting} {r : Receivers},
    (∀ t ∈ d.symbols, t.Proper) → σ.Settled → r = σ.receivers → c.Ongoing σ →
    Emits d.run c (d.code σ r) (d.uses σ) (d.after σ) fun _ _ => True
  | .statement s, c, σ, r, hproper, hs, hr, hc => s.run_emits hproper hs hr hc
  | .var name value, c, σ, r, hproper, _, hr, hc => by
    have := reads_runVariable name value
    exact .bind (advance_emits hc) fun _ _ hc₁ _ _ =>
      runVariable_emits hr hc₁ (proper_of_variable hproper).1 value
  | .function f, c, σ, r, hproper, hs, hr, hc => by
    have := f.reads_run .function
    simp only [Declaration.symbols, List.forall_mem_cons] at hproper
    have hinside : r = (σ.define f.name).receivers :=
      hr.trans ((Declaration.function f).receivers_after (by simpa [Declaration.symbols] using hproper)).symm
    exact .congr (.bind (advance_emits hc) fun _ _ hc₁ _ _ => runFunction_emits hc₁ f.name fun _ hc₂ =>
      f.run_emits .function hproper.2 (hs.define f.name) hinside hc₂) (by simp [Declaration.code])
      (by simp [Declaration.uses])
  | .cls name superclass methods, c, σ, r, hproper, hs, hr, hc => by
    have := Routine.reads_runMethods methods
    have := reads_runClass (Routine.runMethods methods) name superclass
    simp only [Declaration.symbols, List.forall_mem_append, List.forall_mem_cons] at hproper
    have hinside := Setting.receivers_methods (σ := σ) hproper.2.1 superclass
    rw [← hr] at hinside
    exact .congr (.bind (advance_emits hc) fun _ _ hc₁ _ _ => runClass_emits hs hc₁ superclass
      fun _ hc₂ => Routine.runMethods_emits methods hproper.2.2.2.2.1
        (methodsSetting_settled hs name superclass) hinside.symm hc₂) (by simp [Declaration.code])
      (by simp [Declaration.uses])

/-- **Compiling along a function or a method writes the code that makes its closure.** -/
theorem Routine.run_emits (kind : FunctionKind) :
    ∀ (f : Routine) {c : Compiler} {σ : Setting} {r : Receivers},
    (∀ t ∈ f.symbols, t.Proper) → σ.Settled → r = σ.receivers → c.Ongoing σ →
    Emits (f.run kind) c [f.code kind σ r] (f.uses kind σ) σ fun _ _ => True
  | .mk name parameters body, c, σ, r, hproper, hs, hr, hc => by
    have := reads_runParameters parameters
    simp only [Routine.symbols, List.forall_mem_append, List.forall_mem_cons] at hproper
    obtain ⟨-, -, hparameters, -, -, hbody, -⟩ := hproper
    set τ := parameters.foldl Setting.define (σ.begin kind) with hτ
    have hclasses : (Declaration.afterList body τ).classes = σ.classes :=
      (Declaration.classes_afterList body τ).trans (classes_parameters parameters _)
    have hkind : (Declaration.afterList body τ).here.kind = kind :=
      (Declaration.kind_afterList body τ).trans (kind_parameters parameters _)
    have hinside : r.enter kind σ.outer.length = τ.receivers := by
      rw [hτ, receivers_parameters parameters fun p hp => hparameters _ (mem_parameterSymbols hp),
        Setting.receivers_begin, hr]
    have hinner : ∀ c₁ : Compiler, c₁.Ongoing (σ.begin kind) → Ends (do
        advance; runParameters parameters; advance
        advance
        Declaration.runList body
        advance) c₁ fun _ c₂ => c₂.Ongoing (Declaration.afterList body τ) ∧
          (∃ bytes, c₁.Adds bytes (Declaration.listUses body τ) c₂ ∧
            Spells c₂.linkage (Declaration.listCode body τ (r.enter kind σ.outer.length)) bytes) ∧
          c₂.draft.arity = c₁.draft.arity + parameters.length := by
      intro c₁ hc₁
      refine Ends.next (advance_emits hc₁) fun _ c₂ h₂ => ?_
      obtain ⟨hc₂, hw₂, -⟩ := h₂
      refine (runParameters_adds Nat.one_ne_zero hc₂ parameters).next fun _ c₃ h₃ => ?_
      obtain ⟨hc₃, hadds₃, harity₃⟩ := h₃
      have hrest : Emits (do advance; advance; Declaration.runList body; advance) c₃
          (Declaration.listCode body τ (r.enter kind σ.outer.length)) (Declaration.listUses body τ)
          (Declaration.afterList body τ) fun _ _ => True :=
        .congr (.bind (advance_emits hc₃) fun _ _ hc₄ _ _ => .bind (advance_emits hc₄) fun _ _ hc₅ _ _ =>
          .bind (Declaration.runList_emits body hbody (parameters_settled (hs.begin kind) parameters)
            hinside hc₅) fun _ _ hc₆ _ _ => advance_emits hc₆) (by simp [hτ]) (by simp [hτ])
      refine Ends.mono hrest fun _ c₄ h₄ => ?_
      obtain ⟨hc₄, ⟨⟨bytes, hadds₄, hspells⟩, harity₄⟩, -⟩ := h₄
      refine ⟨hc₄, ⟨bytes, hw₂.adds.trans (hadds₃.trans hadds₄), hspells⟩, ?_⟩
      rw [harity₄, harity₃, hw₂.arity]
    have hassoc : (Routine.mk name parameters body).run kind = (do
        beginNamed kind name
        beginScope
        (do
          advance; runParameters parameters; advance
          advance
          Declaration.runList body
          advance)
        emitClosure (← endFunction)) := by
      unfold Routine.run
      simp only [bind_assoc]
    rw [hassoc]
    refine .congr (function_emits hc kind name hclasses hkind hinner) ?_ ?_
    · rw [Routine.code]
    · rw [Routine.uses]

theorem Declaration.runList_emits : ∀ (body : List Declaration) {c : Compiler} {σ : Setting} {r : Receivers},
    (∀ t ∈ Declaration.listSymbols body, t.Proper) → σ.Settled → r = σ.receivers → c.Ongoing σ →
    Emits (Declaration.runList body) c (Declaration.listCode body σ r) (Declaration.listUses body σ)
      (Declaration.afterList body σ) fun _ _ => True
  | [], c, σ, r, _, _, _, hc => .pure hc trivial
  | d :: more, c, σ, r, hproper, hs, hr, hc => by
    simp only [Declaration.listSymbols, List.forall_mem_append] at hproper
    exact .bind (d.run_emits hproper.1 hs hr hc) fun _ _ hc₁ _ _ =>
      Declaration.runList_emits more hproper.2 (d.after_settled hs)
        (hr.trans (d.receivers_after hproper.1).symm) hc₁

theorem Routine.runMethods_emits : ∀ (methods : List Routine) {c : Compiler} {σ : Setting} {r : Receivers},
    (∀ t ∈ Routine.listSymbols methods, t.Proper) → σ.Settled → r = σ.receivers → c.Ongoing σ →
    Emits (Routine.runMethods methods) c (Routine.listCode methods σ r) (Routine.listUses methods σ) σ
      fun _ _ => True
  | [], c, σ, r, _, _, _, hc => .pure hc trivial
  | .mk name parameters body :: more, c, σ, r, hproper, hs, hr, hc => by
    have := (Routine.mk name parameters body).reads_run (methodKind name)
    have := Routine.reads_runMethods more
    simp only [Routine.listSymbols, List.forall_mem_append] at hproper
    exact .congr (.bind (runMethod_emits hc name fun _ hc₁ =>
      (Routine.mk name parameters body).run_emits (methodKind name) hproper.1 hs hr hc₁)
      fun _ _ hc₂ _ _ => Routine.runMethods_emits more hproper.2 hs hr hc₂) (by simp [Routine.listCode])
      (by simp [Routine.listUses])

end

/-! ## Programs -/

/-- What a source is compiled to: a function without parameters, whose bytes stand for the code. -/
structure CompilesTo (heap : Heap) (h : Handle) (code : Code) : Prop where
  cell : ∃ f charged, heap.cell? h = some ⟨.function f, charged⟩ ∧ f.name = none ∧ f.arity = 0 ∧
    f.upvalueCount = 0 ∧ Spells ⟨heap, f.chunk.constants.toList, [], 0⟩ code f.chunk.code.toList

/-- **A source that compiles is compiled to the code of its program.** -/
theorem Parses.spells {source : String} {program : List Declaration} {heap heap' : Heap}
    {roots : Thunk (List Handle)} {h : Handle} (hp : Parses source program) (ht : heap.Tidy)
    (hok : compile source heap roots = (.ok h, heap')) : CompilesTo heap' h (script program) := by
  obtain ⟨herr, halloc⟩ := hp.compile_eq_ok_iff.1 hok
  set c := Compiler.start source heap roots with hcdef
  have hc : c.Ongoing .start := ⟨hp.stands heap roots, ht⟩
  have hrun : Emits (do advance; Declaration.runList program; advance) c
      (Declaration.listCode program .start .none) (Declaration.listUses program .start)
      (Declaration.afterList program .start) fun _ _ => True :=
    .congr (.bind (advance_emits hc) fun _ _ hc₁ _ _ =>
      .bind (Declaration.runList_emits program hp.proper ⟨Setting.settled_start, nofun⟩
        Setting.receivers_start.symm hc₁) fun _ _ hc₂ _ _ => advance_emits hc₂) (by simp) (by simp)
  have hgroup : runProgram program = (do
      (do advance; Declaration.runList program; advance)
      endFunction) := by
    simp only [runProgram, bind_assoc]
  have herrors : ((do advance; Declaration.runList program; advance : Compile Unit) c).2.errors = #[] := by
    rw [← errors_endFunction, ← herr, hgroup]
    rfl
  obtain ⟨hc₁, ⟨⟨bytes, hadds, hspells⟩, harity⟩, -⟩ := hrun herrors
  set c₁ := ((do advance; Declaration.runList program; advance : Compile Unit) c).2 with hc₁def
  have henclosing : c₁.enclosing = [] := by
    have hlength := hadds.enclosing.length_eq
    exact List.length_eq_zero_iff.1 (hlength.trans rfl)
  have hcaptured : origins (c₁.draft :: c₁.enclosing) = [] := by
    rw [hadds.captured]
    simp [hcdef, Compiler.start, origins, Draft.start]
  obtain ⟨chunk, heap₂, hreturn, hend, htidy₂, hcells⟩ := endFunction_run c₁
  set d : Draft := { c₁.draft with chunk } with hd
  have hprogram : runProgram program c = endFunction c₁ := by
    rw [hgroup]
    rfl
  rw [hprogram, hend] at halloc
  have hnew := Heap.alloc_allocates (htidy₂ hc₁.tidy) roots (.function d.function)
  rw [halloc] at hnew
  refine ⟨d.function, _, hnew.new, hadds.name, harity, ?_, ?_⟩
  · have hcount : d.upvalueCount = c₁.draft.captures.size := (hc₁.bounded _ List.mem_cons_self).counted
    exact hcount.trans ((length_origins c₁.draft c₁.enclosing).symm.trans (congrArg List.length hcaptured))
  · have hkind : (Declaration.afterList program .start).here.kind = .script :=
      Declaration.kind_afterList program .start
    have hfinish := emitReturn_emits hc₁ (by rw [hreturn]; exact hc₁.errors)
    rw [hreturn, hkind] at hfinish
    obtain ⟨-, ⟨⟨bytes₂, hadds₂, hspells₂⟩, -⟩, -⟩ := hfinish
    have hcode : chunk.code.toList = bytes ++ bytes₂ := hadds₂.code.trans (congrArg (· ++ bytes₂) hadds.code)
    change Spells ⟨heap', chunk.constants.toList, [], 0⟩ (script program) chunk.code.toList
    rw [hcode]
    refine ((hspells.mono hadds₂.le).append hspells₂).mono ⟨List.prefix_rfl, ?_, ?_, ?_⟩
    · exact (hcaptured ▸ List.prefix_rfl : origins (c₁.draft :: c₁.enclosing) <+: [])
    · exact (congrArg List.length henclosing).symm
    · have hheap : c₁.heap.Keeps (chunk.constants.toList.filterMap Value.handle?) heap₂ := fun x _ => hcells x
      exact hheap.trans (hnew.keeps.mono fun r hr => List.mem_append_left _ (List.mem_append_right _ hr))

end LoxMachine
