import LoxMachine.Proofs.Grammar.Acceptance
import LoxMachine.Proofs.Grammar.Phrases

/-!
# Legal programs compile

* `Statement.run_costs`, `Declaration.run_costs` and `Routine.run_costs`: compiling along a tree meets no
  error if and only if the tree is legal and there is room for its footprint.
* `compile_accepts_iff`: a source compiles if and only if it is the text of a legal program.
-/

namespace LoxMachine

open Compile

set_option synthInstance.maxSize 4096

/-! ## Classes -/

section Classes

variable {c : Compiler} {σ : Setting} {methods : Compile Unit} {k : Nat} {P : Prop} {f : Footprint}

theorem modifyClasses_costs (hc : c.Stands σ) (g : Compiler → List ClassScope) :
    Costs (modify fun c => { c with classes := g c }) c True 0
      { σ with classes := (g c).map ClassScope.hasSuperclass } fun _ _ => True :=
  ⟨iff_of_true hc.errors ⟨trivial, hc.room_bytes 0⟩, fun _ =>
    ⟨⟨hc.errors, hc.calm, hc.clean, hc.here, hc.outer, rfl, hc.threaded, hc.bounded⟩,
      ⟨rfl, rfl, nofun, fun _ => ⟨.inl, fun h => h.elim id nofun⟩, .refl _⟩, trivial⟩⟩

theorem Setting.define_local (name : String) (hdepth : σ.here.depth ≠ 0) :
    σ.define name = { σ with here := σ.here.push name (some σ.here.depth) } := if_neg hdepth

theorem methodsSetting_settled (hs : σ.Settled) (name : String) (superclass : Option String) :
    (methodsSetting name superclass σ).Settled := by
  cases superclass with
  | none => exact (hs.define name).within false
  | some s => exact ((hs.define name).enter.define "super").within true

theorem runSuperclass_costs (hs : σ.Settled) {name : String}
    (hc : c.Stands ((σ.define name).within false)) (superclass : String) :
    Costs (runSuperclass name superclass) c
      (name ≠ superclass ∧ (σ.define name).Usable superclass ∧
        (σ.define name).here.locals.length < byteCount)
      ((σ.define name).access superclass + (methodsSetting name (some superclass) σ).access name + .bytes 1)
      (methodsSetting name (some superclass) σ) fun _ _ => True := by
  set τ := (σ.define name).within false with hτ
  have hτs : (τ.enter.define "super").Settled := ((hs.define name).within false).enter.define "super"
  have hdefine : ∀ c₁ : Compiler, c₁.Stands { τ.enter with here := τ.enter.here.push "super" none } →
      Costs (defineVariable 0) c₁ True 0 (τ.enter.define "super") fun _ _ => True := by
    intro c₁ hc₁
    have hinside : τ.enter.here.depth ≠ 0 := Nat.succ_ne_zero _
    refine .congr (defineVariable_costs none 0 ?_) Iff.rfl ?_
    · rwa [if_neg hinside]
    · rw [if_neg hinside]
      rfl
  have hmark : ∀ c₁ : Compiler, c₁.Stands (τ.enter.define "super") →
      Costs (modify fun c => { c with classes := { hasSuperclass := true } :: c.classes.drop 1 }) c₁ True 0
        (methodsSetting name (some superclass) σ) fun _ _ => True := by
    intro c₁ hc₁
    have hclasses : (({ hasSuperclass := true } :: c₁.classes.drop 1 : List ClassScope).map
        ClassScope.hasSuperclass) = true :: σ.classes := by
      rw [List.map_cons, List.map_drop, hc₁.classes, Setting.classes_define]
      exact congrArg (true :: ·) (Setting.classes_define σ name)
    have hend : methodsSetting name (some superclass) σ =
        { τ.enter.define "super" with classes := true :: σ.classes } := by
      rw [methodsSetting, Setting.within, Setting.classes_define]
      exact congrArg _ (congrArg (true :: ·) (Setting.classes_define σ name))
    rw [hend, ← hclasses]
    exact modifyClasses_costs hc₁ _
  refine .congr (.bind (advance_costs hc) fun _ _ hc₁ _ _ => .bind (advance_costs hc₁) fun _ _ hc₂ _ _ =>
    .bind (readVariable_costs hc₂ superclass) fun _ _ hc₃ _ _ => .bind (errorIf_costs hc₃ _ _)
    fun _ _ hc₄ _ _ => .bind (beginScope_costs hc₄) fun _ _ hc₅ _ _ => .bind (addLocal_costs hc₅ "super")
    fun _ _ hc₆ _ _ => .bind (hdefine _ hc₆) fun _ _ hc₇ _ _ => .bind (readVariable_costs hc₇ name)
    fun _ _ hc₈ _ _ => .bind (emit_costs hc₈ _) fun _ _ hc₉ _ _ => hmark _ hc₉) ?_ ?_
  · have husable : τ.Usable superclass ↔ (σ.define name).Usable superclass := Iff.rfl
    have hlocals : τ.enter.here.locals = (σ.define name).here.locals := rfl
    rw [husable, hlocals]
    simp [hτs.usable]
    tauto
  · have haccess : (methodsSetting name (some superclass) σ).access name =
        (τ.enter.define "super").access name := by
      unfold methodsSetting
      rw [hτ]
      unfold Setting.enter Setting.within Setting.define
      rfl
    have haccess' : τ.access superclass = (σ.define name).access superclass := rfl
    rw [haccess, haccess']
    ext <;> simp
    omega

theorem leaveClass_costs (hs : σ.Settled) {name : String} {superclass : Option String}
    (hc : c.Stands (methodsSetting name superclass σ)) :
    Costs leaveClass c True (.bytes (if superclass = none then 1 else 2)) (σ.define name)
      fun _ _ => True := by
  set τ := ((σ.define name).enter.define "super") with hτ
  have hclasses : ∀ c₁ : Compiler, c₁.Stands (methodsSetting name superclass σ) →
      c₁.classes.map ClassScope.hasSuperclass = superclass.isSome :: σ.classes := by
    intro c₁ hc₁
    rw [hc₁.classes]
    cases superclass with
    | none => exact congrArg (false :: ·) (Setting.classes_define σ name)
    | some s =>
      refine congrArg (true :: ·) ((Setting.classes_define _ _).trans ?_)
      exact Setting.classes_define σ name
  have hdrop : ∀ c₁ : Compiler, c₁.Stands (methodsSetting name superclass σ) →
      Costs (modify fun c => { c with classes := c.classes.drop 1 }) c₁ True 0
        (superclass.elim (σ.define name) fun _ => τ) fun _ _ => True := by
    intro c₁ hc₁
    have hend : superclass.elim (σ.define name) (fun _ => τ) = { methodsSetting name superclass σ with
        classes := (c₁.classes.drop 1).map ClassScope.hasSuperclass } := by
      rw [List.map_drop, hclasses c₁ hc₁, List.drop_one, List.tail_cons]
      cases superclass with
      | none => exact congrArg (Setting.mk _ _) (Setting.classes_define σ name)
      | some s =>
        have hsame : τ.classes = σ.classes :=
          (Setting.classes_define _ _).trans (Setting.classes_define σ name)
        exact congrArg (Setting.mk _ _) hsame
    rw [hend]
    exact modifyClasses_costs hc₁ _
  have hrest : ∀ c₁ : Compiler, c₁.Stands (methodsSetting name superclass σ) → Costs (do
      let scope := (← get).classes.head?
      modify fun c => { c with classes := c.classes.drop 1 }
      if scope.any (·.hasSuperclass) then endScope) c₁ True
        (.bytes (if superclass = none then 0 else 1)) (σ.define name) fun _ _ => True := by
    intro c₁ hc₁
    refine .known (a := c₁) rfl ?_
    have hhead : c₁.classes.head?.any (·.hasSuperclass) = superclass.isSome := by
      have hmap := hclasses c₁ hc₁
      cases hcons : c₁.classes with
      | nil =>
        rw [hcons] at hmap
        cases hmap
      | cons scope classes =>
        rw [hcons] at hmap
        exact (List.cons.inj hmap).1
    simp only [hhead]
    cases superclass with
    | none => exact .congr (.bind (hdrop c₁ hc₁) fun _ _ hc₂ _ _ => .pure hc₂ trivial) (by simp) rfl
    | some s =>
      have hinner : (σ.define name).Encloses τ := (Setting.encloses_enter _).define "super"
      refine .congr (.bind (hdrop c₁ hc₁) fun _ _ hc₂ _ _ => endScope_costs (hs.define name).here hinner hc₂)
        (by simp) ?_
      have hlocals : τ.here.locals.length = (σ.define name).here.locals.length + 1 := by
        rw [hτ, Setting.define_local _ (Nat.succ_ne_zero _)]
        rfl
      ext <;> simp [Setting.leaving, hlocals]
  unfold leaveClass
  refine .congr (.bind (emit_costs hc _) fun _ c₁ hc₁ _ _ => hrest c₁ hc₁) (by simp) ?_
  cases superclass <;> rfl

theorem runClass_eq (name : String) (superclass : Option String) (methods : Compile Unit) :
    runClass name superclass methods = (do
      advance
      let constant ← nameConstant name
      declareName name
      emitWith .cls constant
      defineVariable constant
      modify fun c => { c with classes := {} :: c.classes }
      superclass.elim (pure ()) (runSuperclass name)
      readVariable name
      advance
      methods
      advance
      leaveClass) := by
  unfold runClass
  cases superclass <;> simp

/-- **What a class costs**, if its methods cost `f`. -/
theorem runClass_costs [Reads methods k] (hs : σ.Settled) (hc : c.Stands σ) (name : String)
    (superclass : Option String)
    (hmethods : ∀ c₁ : Compiler, c₁.Stands (methodsSetting name superclass σ) →
      Costs methods c₁ P f (methodsSetting name superclass σ) fun _ _ => True) :
    Costs (runClass name superclass methods) c
      (σ.Declarable name ∧ SuperclassLegal name superclass σ ∧ P)
      (classFootprint name superclass σ + f + .bytes (if superclass = none then 1 else 2))
      (σ.define name) fun _ _ => True := by
  have henter : ∀ c₁ : Compiler, c₁.Stands (σ.define name) →
      Costs (modify fun c => { c with classes := {} :: c.classes }) c₁ True 0
        ((σ.define name).within false) fun _ _ => True := by
    intro c₁ hc₁
    have hend : (σ.define name).within false = { σ.define name with
        classes := ({} :: c₁.classes : List ClassScope).map ClassScope.hasSuperclass } := by
      rw [List.map_cons, hc₁.classes]
      rfl
    rw [hend]
    exact modifyClasses_costs hc₁ _
  have hsuperclass : ∀ c₁ : Compiler, c₁.Stands ((σ.define name).within false) →
      Costs (superclass.elim (pure ()) (runSuperclass name)) c₁
        (SuperclassLegal name superclass σ)
        (superclass.elim 0 fun s => (σ.define name).access s +
          (methodsSetting name superclass σ).access name + .bytes 1)
        (methodsSetting name superclass σ) fun _ _ => True := by
    intro c₁ hc₁
    cases superclass with
    | none => exact .congr (.pure hc₁ trivial) (by simp [SuperclassLegal]) rfl
    | some s => exact .congr (runSuperclass_costs hs hc₁ s) (by simp [SuperclassLegal]) rfl
  have hread : Reads (superclass.elim (pure ()) (runSuperclass name)) (superclass.elim 0 fun _ => 2) := by
    cases superclass with
    | none => exact inferInstanceAs (Reads (pure ()) 0)
    | some s => exact reads_runSuperclass name s
  rw [runClass_eq]
  refine .congr (.bind (advance_costs hc) fun _ _ hc₁ _ _ => .bind (nameConstant_costs hc₁ name)
    fun constant _ hc₂ _ _ => .bind (declareName_costs hs.here hc₂ name) fun _ _ hc₃ _ _ =>
    .bind (emitWith_costs hc₃ _ _) fun _ _ hc₄ _ _ =>
    .bind (defineVariable_costs none constant hc₄) fun _ _ hc₅ _ _ => .bind (henter _ hc₅)
    fun _ _ hc₆ _ _ => .bind (hsuperclass _ hc₆) fun _ _ hc₇ _ _ => .bind (readVariable_costs hc₇ name)
    fun _ _ hc₈ _ _ => .bind (advance_costs hc₈) fun _ _ hc₉ _ _ => .bind (hmethods _ hc₉)
    fun _ _ hc₁₀ _ _ => .bind (advance_costs hc₁₀) fun _ _ hc₁₁ _ _ => leaveClass_costs hs hc₁₁) ?_ ?_
  · simp [(methodsSetting_settled hs name superclass).usable]
  · unfold classFootprint
    by_cases hglobal : σ.here.depth = 0
    · ext <;> simp [hglobal] <;> omega
    · ext <;> simp [hglobal] <;> omega

end Classes

/-! ## Statements and declarations -/

section Settings

variable {σ τ : Setting}

theorem Declaration.after_settled (hs : σ.Settled) (d : Declaration) : (d.after σ).Settled := by
  cases d with
  | statement s => exact hs
  | var name value => exact hs.define name
  | function f => exact hs.define f.name
  | cls name superclass methods => exact hs.define name

theorem Declaration.encloses_afterList (h : σ.Encloses τ) (body : List Declaration) :
    σ.Encloses (Declaration.afterList body τ) := by
  induction body generalizing τ with
  | nil => exact h
  | cons d body ih =>
    refine ih ?_
    cases d with
    | statement s => exact h
    | var name value => exact h.define name
    | function f => exact h.define f.name
    | cls name superclass methods => exact h.define name

theorem Declaration.classes_afterList (body : List Declaration) (σ : Setting) :
    (Declaration.afterList body σ).classes = σ.classes := by
  induction body generalizing σ with
  | nil => rfl
  | cons d body ih =>
    refine (ih _).trans ?_
    cases d with
    | statement s => rfl
    | var name value | function f | cls name superclass methods => exact Setting.classes_define ..

theorem parameters_settled (hs : σ.Settled) (parameters : List String) :
    (parameters.foldl Setting.define σ).Settled := by
  induction parameters generalizing σ with
  | nil => exact hs
  | cons p parameters ih => exact ih (hs.define p)

theorem classes_parameters (parameters : List String) (σ : Setting) :
    (parameters.foldl Setting.define σ).classes = σ.classes := by
  induction parameters generalizing σ with
  | nil => rfl
  | cons p parameters ih => exact (ih _).trans (Setting.classes_define ..)

end Settings

mutual

/-- **What a statement costs.** -/
theorem Statement.run_costs : ∀ (s : Statement) {c : Compiler} {σ : Setting},
    (∀ t ∈ s.symbols, t.Proper) → σ.Settled → c.Stands σ →
    Costs s.run c (s.Legal σ) (s.footprint σ) σ fun _ _ => True
  | .expression e, c, σ, hproper, hs, hc => by
    simp only [Statement.symbols, List.forall_mem_append] at hproper
    exact .congr (.bind (e.run_costs hs.reserved hproper.1 hc) fun _ _ hc₁ _ _ => .bind (advance_costs hc₁)
      fun _ _ hc₂ _ _ => emit_costs hc₂ _) (by simp [Statement.Legal])
      (by ext <;> simp [Statement.footprint])
  | .print e, c, σ, hproper, hs, hc => by
    simp only [Statement.symbols, List.forall_mem_append, List.forall_mem_cons] at hproper
    exact .congr (.bind (advance_costs hc) fun _ _ hc₁ _ _ =>
      .bind (e.run_costs hs.reserved hproper.2.1 hc₁) fun _ _ hc₂ _ _ => .bind (advance_costs hc₂)
      fun _ _ hc₃ _ _ => emit_costs hc₃ _) (by simp [Statement.Legal])
      (by ext <;> simp [Statement.footprint])
  | .block body, c, σ, hproper, hs, hc => by
    simp only [Statement.symbols, List.forall_mem_append, List.forall_mem_cons] at hproper
    refine .congr (.bind (advance_costs hc) fun _ _ hc₁ _ _ => runBlock_costs hs hc₁
      (Declaration.encloses_afterList (Setting.encloses_enter σ) body) fun _ hc₂ =>
      Declaration.runList_costs body hproper.2.1 hs.enter hc₂) (by simp [Statement.Legal]) ?_
    ext <;> simp [Statement.footprint]
  | .ifThen condition body, c, σ, hproper, hs, hc => by
    simp only [Statement.symbols, List.forall_mem_append, List.forall_mem_cons] at hproper
    refine .congr (.bind (advance_costs hc) fun _ _ hc₁ _ _ => runIf_costs hs.reserved hc₁ condition
      hproper.2.2.1 fun _ hc₂ => body.run_costs hproper.2.2.2.2 hs hc₂) (by simp [Statement.Legal]) ?_
    ext <;> simp [Statement.footprint]
  | .ifThenElse condition body otherwise, c, σ, hproper, hs, hc => by
    simp only [Statement.symbols, List.forall_mem_append, List.forall_mem_cons] at hproper
    refine .congr (.bind (advance_costs hc) fun _ _ hc₁ _ _ => runIfElse_costs hs.reserved hc₁ condition
      hproper.2.2.1 (fun _ hc₂ => body.run_costs hproper.2.2.2.2.1 hs hc₂)
      fun _ hc₂ => otherwise.run_costs hproper.2.2.2.2.2.2 hs hc₂) (by simp [Statement.Legal]) ?_
    ext <;> simp [Statement.footprint]
  | .whileLoop condition body, c, σ, hproper, hs, hc => by
    simp only [Statement.symbols, List.forall_mem_append, List.forall_mem_cons] at hproper
    refine .congr (.bind (advance_costs hc) fun _ _ hc₁ _ _ => runWhile_costs hs.reserved hc₁ condition
      hproper.2.2.1 fun _ hc₂ => body.run_costs hproper.2.2.2.2 hs hc₂) (by simp [Statement.Legal]) ?_
    ext <;> simp [Statement.footprint]
  | .forLoop init condition increment body, c, σ, hproper, hs, hc => by
    simp only [Statement.symbols, List.forall_mem_append, List.forall_mem_cons] at hproper
    obtain ⟨-, -, hinit, hcondition, -, hincrement, -, hbody⟩ := hproper
    refine .congr (.bind (advance_costs hc) fun _ _ hc₁ _ _ => runFor_costs hs hc₁ init condition increment
      hinit hcondition hincrement fun _ hc₂ => body.run_costs hbody (init.after_settled hs.enter) hc₂)
      (by simp [Statement.Legal]) ?_
    ext <;> simp [Statement.footprint]
  | .ret value, c, σ, hproper, hs, hc => by
    simp only [Statement.symbols, List.forall_mem_append, List.forall_mem_cons] at hproper
    exact .congr (.bind (advance_costs hc) fun _ _ hc₁ _ _ => runReturn_costs hs.reserved hc₁ value
      hproper.2.1) (by simp) (by ext <;> simp)

/-- **What a declaration costs.** -/
theorem Declaration.run_costs : ∀ (d : Declaration) {c : Compiler} {σ : Setting},
    (∀ t ∈ d.symbols, t.Proper) → σ.Settled → c.Stands σ →
    Costs d.run c (d.Legal σ) (d.footprint σ) (d.after σ) fun _ _ => True
  | .statement s, c, σ, hproper, hs, hc => s.run_costs hproper hs hc
  | .var name value, c, σ, hproper, hs, hc => by
    have := reads_runVariable name value
    exact .congr (.bind (advance_costs hc) fun _ _ hc₁ _ _ => runVariable_costs hs hc₁ name value hproper)
      (by simp [Declaration.Legal]) (by ext <;> simp [Declaration.footprint])
  | .function f, c, σ, hproper, hs, hc => by
    have := f.reads_run .function
    simp only [Declaration.symbols, List.forall_mem_cons] at hproper
    exact .congr (.bind (advance_costs hc) fun _ _ hc₁ _ _ => runFunction_costs hs hc₁ f.name fun _ hc₂ =>
      f.run_costs .function hproper.2 (hs.define f.name) hc₂) (by simp [Declaration.Legal])
      (by ext <;> simp [Declaration.footprint])
  | .cls name superclass methods, c, σ, hproper, hs, hc => by
    have := Routine.reads_runMethods methods
    have := reads_runClass (Routine.runMethods methods) name superclass
    simp only [Declaration.symbols, List.forall_mem_append, List.forall_mem_cons] at hproper
    exact .congr (.bind (advance_costs hc) fun _ _ hc₁ _ _ => runClass_costs hs hc₁ name superclass
      fun _ hc₂ => Routine.runMethods_costs methods hproper.2.2.2.2.1
        (methodsSetting_settled hs name superclass) hc₂) (by simp [Declaration.Legal])
      (by ext <;> simp [Declaration.footprint])

/-- **What a function or a method costs.** -/
theorem Routine.run_costs (kind : FunctionKind) : ∀ (f : Routine) {c : Compiler} {σ : Setting},
    (∀ t ∈ f.symbols, t.Proper) → σ.Settled → c.Stands σ →
    Costs (f.run kind) c (f.Legal kind σ) (f.footprint kind σ) σ fun _ _ => True
  | .mk name parameters body, c, σ, hproper, hs, hc => by
    have := reads_runParameters parameters
    simp only [Routine.symbols, List.forall_mem_append, List.forall_mem_cons] at hproper
    set τ := parameters.foldl Setting.define (σ.begin kind) with hτ
    have hclasses : (Declaration.afterList body τ).classes = σ.classes :=
      (Declaration.classes_afterList body τ).trans (classes_parameters parameters _)
    have hinner : ∀ c₁ : Compiler, c₁.Stands (σ.begin kind) → c₁.draft.arity = 0 →
        Costs (do
          advance; runParameters parameters; advance
          advance
          Declaration.runList body
          advance) c₁
          ((parameters.length ≤ maxArity ∧ ParametersLegal parameters (σ.begin kind)) ∧
            Declaration.ListLegal body τ)
          (Declaration.listFootprint body τ) (Declaration.afterList body τ) fun _ _ => True := by
      intro c₁ hc₁ harity
      refine .congr (.bind (advance_arity_costs hc₁) fun _ _ hc₂ _ h₂ =>
        .bind (runParameters_costs (Setting.settled_begin σ kind) Nat.one_ne_zero hc₂ (h₂.trans harity)
        parameters) fun _ _ hc₃ _ _ => .bind (advance_costs hc₃) fun _ _ hc₄ _ _ =>
        .bind (advance_costs hc₄) fun _ _ hc₅ _ _ => .bind (Declaration.runList_costs body
        hproper.2.2.2.2.2.1 (parameters_settled (hs.begin kind) parameters) hc₅) fun _ _ hc₆ _ _ =>
        advance_costs hc₆) (by simp [hτ, and_assoc]) ?_
      ext <;> simp [hτ]
    have hassoc : (Routine.mk name parameters body).run kind = (do
        beginNamed kind name
        beginScope
        (do
          advance; runParameters parameters; advance
          advance
          Declaration.runList body
          advance)
        emitClosure (← endFunction)) := by
      unfold Routine.run
      simp only [bind_assoc]
    rw [hassoc]
    refine .congr (function_costs hc kind name hclasses hinner) ?_ ?_
    · rw [Routine.Legal]
      tauto
    · rw [Routine.footprint]

theorem Declaration.runList_costs : ∀ (body : List Declaration) {c : Compiler} {σ : Setting},
    (∀ t ∈ Declaration.listSymbols body, t.Proper) → σ.Settled → c.Stands σ →
    Costs (Declaration.runList body) c (Declaration.ListLegal body σ) (Declaration.listFootprint body σ)
      (Declaration.afterList body σ) fun _ _ => True
  | [], c, σ, _, _, hc => .congr (.pure hc trivial) (by simp [Declaration.ListLegal]) rfl
  | d :: more, c, σ, hproper, hs, hc => by
    simp only [Declaration.listSymbols, List.forall_mem_append] at hproper
    exact .congr (.bind (d.run_costs hproper.1 hs hc) fun _ _ hc₁ _ _ =>
      Declaration.runList_costs more hproper.2 (d.after_settled hs) hc₁) (by simp [Declaration.ListLegal]) rfl

theorem Routine.runMethods_costs : ∀ (methods : List Routine) {c : Compiler} {σ : Setting},
    (∀ t ∈ Routine.listSymbols methods, t.Proper) → σ.Settled → c.Stands σ →
    Costs (Routine.runMethods methods) c (Routine.ListLegal methods σ) (Routine.listFootprint methods σ) σ
      fun _ _ => True
  | [], c, σ, _, _, hc => .congr (.pure hc trivial) (by simp [Routine.ListLegal]) rfl
  | .mk name parameters body :: more, c, σ, hproper, hs, hc => by
    have := (Routine.mk name parameters body).reads_run (methodKind name)
    have := Routine.reads_runMethods more
    simp only [Routine.listSymbols, List.forall_mem_append] at hproper
    refine .congr (.bind (runMethod_costs hc name fun _ hc₁ =>
      (Routine.mk name parameters body).run_costs (methodKind name) hproper.1 hs hc₁)
      fun _ _ hc₂ _ _ => Routine.runMethods_costs more hproper.2 hs hc₂) ?_ ?_
    · rw [Routine.ListLegal]
    · rw [Routine.listFootprint]

end

/-! ## Programs -/

section Programs

variable {source : String} {program : List Declaration}

/-- The symbols of a source are proper ones. -/
theorem Parses.proper (hp : Parses source program) : ∀ s ∈ Declaration.listSymbols program, s.Proper := by
  obtain ⟨ts, t, heq, ht, hts⟩ := (Source.ofString source).tokens_eq
  have hsymbols := hp.symbols_eq
  rw [heq, List.map_append] at hsymbols
  obtain ⟨hinit, -⟩ := List.append_inj' hsymbols rfl
  intro s hs
  rw [← hinit] at hs
  obtain ⟨u, hu, rfl⟩ := List.mem_map.1 hs
  have hscanned := (hts u hu).2
  have hname : u.kind = .identifier → u.symbol.text = u.text := by
    intro hkind
    simp [Token.symbol, hkind, TokenKind.isSpelled]
  refine ⟨fun hkind => ?_, fun hkind => ?_, fun hkind => ?_⟩
  · rw [hname hkind]
    exact hscanned.name hkind
  · rw [hname hkind]
    exact hscanned.text
  · have hkind : u.kind = .number := hkind
    have htext : u.symbol.text = u.text := by simp [Token.symbol, hkind, TokenKind.isSpelled]
    rw [htext]
    exact hscanned.number hkind

theorem Parses.stands (hp : Parses source program) (heap : Heap) (roots : Thunk (List Handle)) :
    (Compiler.start source heap roots).Stands .start :=
  ⟨rfl, rfl, hp.notError, rfl, rfl, rfl, ⟨nofun, List.nodup_nil, trivial⟩,
    List.forall_mem_cons.2 ⟨Draft.bounded_start _ _, nofun⟩⟩

theorem errors_endFunction (c : Compiler) : (endFunction c).2.errors = c.errors := by
  obtain ⟨chunk, heap, -, hrun, -⟩ := endFunction_run c
  rw [hrun]
  change ({ c with draft := { c.draft with chunk } } : Compiler).leave.errors = _
  unfold Compiler.leave
  split <;> rfl

/-- **Compiling along a program meets no error if and only if the program is legal.** -/
theorem Parses.runProgram_errors_iff (hp : Parses source program) (heap : Heap)
    (roots : Thunk (List Handle)) :
    (runProgram program (Compiler.start source heap roots)).2.errors = #[] ↔ Legal program := by
  set c := Compiler.start source heap roots with hcdef
  have hc : c.Stands .start := hp.stands heap roots
  have hcosts : Costs (do advance; Declaration.runList program; advance) c
      (Declaration.ListLegal program .start) (Declaration.listFootprint program .start)
      (Declaration.afterList program .start) fun _ _ => True :=
    .congr (.bind (advance_costs hc) fun _ _ hc₁ _ _ =>
      .bind (Declaration.runList_costs program hp.proper ⟨Setting.settled_start, nofun⟩ hc₁)
      fun _ _ hc₂ _ _ => advance_costs hc₂) (by simp) (by ext <;> simp)
  have hrun : (runProgram program c).2.errors =
      ((do advance; Declaration.runList program; advance : Compile Unit) c).2.errors := by
    exact errors_endFunction _
  -- Nothing is around the script, so it captures nothing.
  have hroom : c.Room (Declaration.listFootprint program .start) ↔
      (Declaration.listFootprint program .start).constants ≤ byteCount := by
    constructor
    · intro h
      exact (Nat.zero_add _).symm.trans_le h.constants
    · intro h
      refine ⟨(Nat.zero_add _).trans_le h, ?_, trivial⟩
      simp [origins, hcdef, Compiler.start, Draft.start]
  rw [hrun, hcosts.errors_iff, hroom]
  rfl

/-- What compiles keeps the static rules. -/
theorem Parses.legal {heap' : Heap} {h : Handle} (hp : Parses source program)
    (hok : compile source heap roots = (.ok h, heap')) : Legal program :=
  (hp.runProgram_errors_iff heap roots).1 (hp.compile_eq_ok_iff.1 hok).1

end Programs

/-- **The compiler accepts its language.** A source compiles if and only if its tokens are those of a
program of the grammar that keeps the static rules. -/
theorem compile_accepts_iff (source : String) (heap : Heap) (roots : Thunk (List Handle)) :
    (∃ h heap', compile source heap roots = (.ok h, heap')) ↔
      ∃ program, Parses source program ∧ Legal program := by
  constructor
  · rintro ⟨h, heap', hok⟩
    obtain ⟨program, hp⟩ := exists_parses hok
    exact ⟨program, hp, (hp.runProgram_errors_iff heap roots).1 (hp.compile_eq_ok_iff.1 hok).1⟩
  · rintro ⟨program, hp, hlegal⟩
    exact ⟨_, _, hp.compile_eq_ok_iff.2 ⟨(hp.runProgram_errors_iff heap roots).2 hlegal, rfl⟩⟩

end LoxMachine
