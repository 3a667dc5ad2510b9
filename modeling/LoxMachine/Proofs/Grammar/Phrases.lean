import LoxMachine.Proofs.Grammar.Functions

/-!
# What expressions and statements cost

* `Expression.run_costs`: compiling along an expression meets no error if and only if the expression is
  legal and there is room for its footprint.
* `runIf_costs`, …, `runMethod_costs`: what a statement or declaration costs, if its parts cost what is
  given.
-/

namespace LoxMachine

open Compile

set_option synthInstance.maxSize 4096

/-! ## Names -/

/-- Names are not empty and no keywords, and numbers are numbers. -/
structure Symbol.Proper (s : Symbol) : Prop where
  name : s.kind = .identifier → s.text ≠ "this" ∧ s.text ≠ "super"
  text : s.kind = .identifier → s.text ≠ ""
  number : s.kind = .number → (Number.ofLiteral? s.text).isSome = true

/-- No variable of the functions around is in its initializer. -/
structure Setting.Settled (σ : Setting) : Prop where
  here : σ.here.Settled
  outer : ∀ s ∈ σ.outer, s.Settled

/-- Outside initializers of variables, `this` and `super` can be used wherever they are there. -/
structure Setting.Reserved (σ : Setting) : Prop where
  this : σ.Usable "this"
  super : σ.Usable "super"

namespace Setting

variable {σ : Setting} {name : String}

theorem mem_of_findLocal {locals : List Local} {slot : Nat} {v : Local}
    (h : Draft.findLocal name locals = some (slot, v)) : v ∈ locals := by
  induction locals with
  | nil => cases h
  | cons l locals ih =>
    unfold Draft.findLocal at h
    split at h
    · simp only [Option.some.injEq, Prod.mk.injEq] at h
      exact h.2 ▸ List.mem_cons_self
    · exact List.mem_cons_of_mem _ (ih h)

theorem depth_of_lookup {fs : List FunctionScope} (hfs : ∀ f ∈ fs, f.Settled) {place : Nat × Nat}
    {v : Local} (h : lookup name fs = some (place, v)) : v.depth ≠ none := by
  induction fs with
  | nil => cases h
  | cons f fs ih =>
    obtain ⟨hf, hfs⟩ := List.forall_mem_cons.1 hfs
    unfold lookup at h
    cases hfind : Draft.findLocal name f.locals with
    | none =>
      rw [hfind] at h
      exact ih hfs h
    | some found =>
      rw [hfind] at h
      obtain ⟨slot, w⟩ := found
      simp only [Option.some.injEq, Prod.mk.injEq] at h
      obtain ⟨-, rfl⟩ := h
      obtain ⟨k, -, hk⟩ := hf.depths w (mem_of_findLocal hfind)
      rw [hk]
      exact Option.some_ne_none k

theorem Settled.usable (h : σ.Settled) (name : String) : σ.Usable name :=
  fun _ _ hlookup => depth_of_lookup (List.forall_mem_cons.2 ⟨h.here, h.outer⟩) hlookup

theorem Settled.reserved (h : σ.Settled) : σ.Reserved := ⟨h.usable _, h.usable _⟩

theorem usable_initializing {other : String} (h : σ.Usable name) (hne : other ≠ name) :
    (σ.initializing other).Usable name := by
  unfold initializing
  split
  · exact h
  · intro place v hlookup
    simp only [functions, lookup, FunctionScope.push, Draft.findLocal, if_neg hne] at hlookup
    exact h place v hlookup

theorem Reserved.initializing (h : σ.Reserved) (hname : (Symbol.name name).Proper) :
    (σ.initializing name).Reserved :=
  ⟨usable_initializing h.this (hname.name rfl).1, usable_initializing h.super (hname.name rfl).2⟩

end Setting

/-! ## Expressions -/

theorem near_of_lt {n : Nat} (h : n < 100) : Near n := by
  unfold Near maxJump
  omega

namespace Expression

variable {c : Compiler} {σ : Setting}

theorem checkSuper_costs (hc : c.Stands σ) :
    Costs checkSuper c (σ.classes.head? = some true) 0 σ fun _ _ => True := by
  unfold checkSuper
  refine .known (a := c) rfl ?_
  rw [← hc.classes]
  rcases hclasses : c.classes with _ | ⟨scope, classes⟩
  · exact (error_costs hc _).congr (by simp) rfl
  · rcases hsuper : scope.hasSuperclass
    · simp only [hsuper]
      exact (error_costs hc _).congr (by simp [hsuper]) rfl
    · simp only [hsuper]
      exact .congr (.pure hc trivial) (by simp [hsuper]) rfl

mutual

/-- **What an expression costs.** -/
theorem run_costs (hσ : σ.Reserved) : ∀ (e : Expression) {c : Compiler},
    (∀ s ∈ e.symbols, s.Proper) → c.Stands σ →
    Costs e.run c (e.Legal σ) (e.footprint σ) σ fun _ _ => True
  | nil, c, _, hc | bool _, c, _, hc => by
    unfold run
    exact .congr (.bind (advance_costs hc) fun _ _ hc₁ _ _ => emit_costs hc₁ _) (by simp [Legal]) rfl
  | number literal, c, hproper, hc => by
    obtain ⟨n, hn⟩ := Option.isSome_iff_exists.1 ((hproper _ List.mem_cons_self).number rfl)
    change Number.ofLiteral? literal = some n at hn
    unfold run
    simp only [hn]
    exact .congr (.bind (advance_costs hc) fun _ _ hc₁ _ _ => emitConstant_costs hc₁ _) (by simp [Legal])
      rfl
  | string literal, c, _, hc => by
    unfold run
    exact .congr (.bind (advance_costs hc) fun _ _ hc₁ _ _ => .bind (intern_costs hc₁ _)
      fun _ _ hc₂ _ _ => emitConstant_costs hc₂ _) (by simp [Legal]) rfl
  | read name, c, _, hc => by
    unfold run
    exact .congr (.bind (advance_costs hc) fun _ _ hc₁ _ _ => readVariable_costs hc₁ name)
      (by simp [Legal]) (by ext <;> simp [footprint])
  | this, c, _, hc => by
    have hrest : ∀ c₁ : Compiler, c₁.Stands σ → Costs (do
        if (← get).classes.isEmpty then error .thisOutsideClass else readVariable "this") c₁
          (σ.classes ≠ []) (σ.access "this") σ fun _ _ => True := by
      intro c₁ hc₁
      refine .known (a := c₁) rfl ?_
      have hclasses := hc₁.classes
      cases hempty : c₁.classes with
      | nil =>
        rw [hempty] at hclasses
        exact (error_costs hc₁ _).congr (by simp [← hclasses]) rfl
      | cons scope classes =>
        rw [hempty] at hclasses
        exact (readVariable_costs hc₁ "this").congr (by simp [← hclasses, hσ.this]) rfl
    unfold run
    exact .congr (.bind (advance_costs hc) fun _ c₁ hc₁ _ _ => hrest c₁ hc₁) (by simp [Legal])
      (by ext <;> simp [footprint])
  | grouping e, c, hproper, hc => by
    simp only [symbols, List.forall_mem_append, List.forall_mem_cons] at hproper
    unfold run
    exact .congr (.bind (advance_costs hc) fun _ _ hc₁ _ _ => .bind (run_costs hσ e hproper.2.1 hc₁)
      fun _ _ hc₂ _ _ => advance_costs hc₂) (by simp [Legal]) (by ext <;> simp [footprint])
  | superProperty name, c, _, hc => by
    unfold run
    refine .congr (.bind (advance_costs hc) fun _ _ hc₁ _ _ => .bind (checkSuper_costs hc₁)
      fun _ _ hc₂ _ _ => .bind (advance_costs hc₂) fun _ _ hc₃ _ _ => .bind (advance_costs hc₃)
      fun _ _ hc₄ _ _ => .bind (nameConstant_costs hc₄ name) fun _ _ hc₅ _ _ =>
      .bind (readVariable_costs hc₅ "this") fun _ _ hc₆ _ _ => .bind (readVariable_costs hc₆ "super")
      fun _ _ hc₇ _ _ => emitWith_costs hc₇ _ _) (by simp [Legal, hσ.this, hσ.super]) ?_
    ext <;> simp [footprint] <;> omega
  | superInvoke name arguments, c, hproper, hc => by
    have := reads_runArguments arguments
    simp only [symbols, List.forall_mem_append, List.forall_mem_cons] at hproper
    unfold run
    refine .congr (.bind (advance_costs hc) fun _ _ hc₁ _ _ => .bind (checkSuper_costs hc₁)
      fun _ _ hc₂ _ _ => .bind (advance_costs hc₂) fun _ _ hc₃ _ _ => .bind (advance_costs hc₃)
      fun _ _ hc₄ _ _ => .bind (nameConstant_costs hc₄ name) fun _ _ hc₅ _ _ =>
      .bind (readVariable_costs hc₅ "this") fun _ _ hc₆ _ _ => .bind (advance_costs hc₆)
      fun _ _ hc₇ _ _ => .bind (runArguments_costs hσ arguments hproper.2.2.2.2.1 hc₇)
      fun _ _ hc₈ _ _ => .bind (advance_costs hc₈) fun _ _ hc₉ _ _ =>
      .bind (readVariable_costs hc₉ "super") fun _ _ hc₁₀ _ _ => .bind (emitWith_costs hc₁₀ _ _)
      fun _ _ hc₁₁ _ _ => emitByte_costs hc₁₁ _) (by simp [Legal, hσ.this, hσ.super]) ?_
    ext <;> simp [footprint] <;> omega
  | call callee arguments, c, hproper, hc => by
    have := reads_runArguments arguments
    simp only [symbols, List.forall_mem_append, List.forall_mem_cons] at hproper
    unfold run
    refine .congr (.bind (run_costs hσ callee hproper.1 hc) fun _ _ hc₁ _ _ => .bind (advance_costs hc₁)
      fun _ _ hc₂ _ _ => .bind (runArguments_costs hσ arguments hproper.2.2.1 hc₂)
      fun _ _ hc₃ _ _ => .bind (advance_costs hc₃) fun _ _ hc₄ _ _ => emitWith_costs hc₄ _ _)
      (by simp [Legal]) ?_
    ext <;> simp [footprint]
    omega
  | property target name, c, hproper, hc => by
    simp only [symbols, List.forall_mem_append, List.forall_mem_cons] at hproper
    unfold run
    refine .congr (.bind (run_costs hσ target hproper.1 hc) fun _ _ hc₁ _ _ => .bind (advance_costs hc₁)
      fun _ _ hc₂ _ _ => .bind (advance_costs hc₂) fun _ _ hc₃ _ _ => .bind (nameConstant_costs hc₃ name)
      fun _ _ hc₄ _ _ => emitWith_costs hc₄ _ _) (by simp [Legal]) ?_
    ext <;> simp [footprint]
  | invoke target name arguments, c, hproper, hc => by
    have := reads_runArguments arguments
    simp only [symbols, List.forall_mem_append, List.forall_mem_cons] at hproper
    unfold run
    refine .congr (.bind (run_costs hσ target hproper.1 hc) fun _ _ hc₁ _ _ => .bind (advance_costs hc₁)
      fun _ _ hc₂ _ _ => .bind (advance_costs hc₂) fun _ _ hc₃ _ _ => .bind (nameConstant_costs hc₃ name)
      fun _ _ hc₄ _ _ => .bind (advance_costs hc₄) fun _ _ hc₅ _ _ =>
      .bind (runArguments_costs hσ arguments hproper.2.2.2.2.1 hc₅) fun _ _ hc₆ _ _ =>
      .bind (advance_costs hc₆) fun _ _ hc₇ _ _ => .bind (emitWith_costs hc₇ _ _)
      fun _ _ hc₈ _ _ => emitByte_costs hc₈ _) (by simp [Legal]) ?_
    ext <;> simp [footprint] <;> omega
  | unary operator e, c, hproper, hc => by
    simp only [symbols, List.forall_mem_cons] at hproper
    unfold run
    exact .congr (.bind (advance_costs hc) fun _ _ hc₁ _ _ => .bind (run_costs hσ e hproper.2 hc₁)
      fun _ _ hc₂ _ _ => emit_costs hc₂ _) (by simp [Legal]) (by ext <;> simp [footprint])
  | binary operator left right, c, hproper, hc => by
    simp only [symbols, List.forall_mem_append, List.forall_mem_cons] at hproper
    unfold run
    refine .congr (.bind (run_costs hσ left hproper.1 hc) fun _ _ hc₁ _ _ => .bind (advance_costs hc₁)
      fun _ _ hc₂ _ _ => .bind (run_costs hσ right hproper.2.2 hc₂) fun _ _ hc₃ _ _ =>
      emitAll_costs hc₃ operator.opcodes id) (by simp [Legal]) ?_
    ext <;> simp [footprint]
    omega
  | and left right, c, hproper, hc => by
    simp only [symbols, List.forall_mem_append, List.forall_mem_cons] at hproper
    unfold run
    refine .congr (.bind (run_costs hσ left hproper.1 hc) fun _ _ hc₁ _ _ => .bind (advance_costs hc₁)
      fun _ c₂ hc₂ _ _ => .bind (emitJump_costs hc₂ _) fun atEnd c₃ hc₃ h₃ hatEnd =>
      .bind (emit_costs hc₃ _) fun _ c₄ hc₄ h₄ _ => .bind (run_costs hσ right hproper.2.2 hc₄)
      fun _ c₅ hc₅ h₅ _ => patchJump_costs hc₅ (1 + (right.footprint σ).size) ?_) ?_ ?_
    · simp only [h₅.size, h₄.size, h₃.size, Footprint.size_bytes]
      omega
    · simp [Legal]
    · ext <;> simp [footprint]
      omega
  | or left right, c, hproper, hc => by
    simp only [symbols, List.forall_mem_append, List.forall_mem_cons] at hproper
    unfold run
    refine .congr (.bind (run_costs hσ left hproper.1 hc) fun _ _ hc₁ _ _ => .bind (advance_costs hc₁)
      fun _ c₂ hc₂ _ _ => .bind (emitJump_costs hc₂ _) fun onFalse c₃ hc₃ h₃ honFalse =>
      .bind (emitJump_costs hc₃ _) fun atEnd c₄ hc₄ h₄ hatEnd => .bind (patchJump_costs hc₄ 3 ?_)
      fun _ c₅ hc₅ h₅ _ => .bind (emit_costs hc₅ _) fun _ c₆ hc₆ h₆ _ =>
      .bind (run_costs hσ right hproper.2.2 hc₆) fun _ c₇ hc₇ h₇ _ =>
      patchJump_costs hc₇ (1 + (right.footprint σ).size) ?_) ?_ ?_
    · simp only [h₄.size, h₃.size, Footprint.size_bytes]
      omega
    · simp only [h₇.size, h₆.size, h₅.size, h₄.size, Footprint.size_bytes, Footprint.size_zero]
      omega
    · simp [Legal, near_of_lt]
    · ext <;> simp [footprint]
      omega
  | assign name value, c, hproper, hc => by
    simp only [symbols, List.forall_mem_cons] at hproper
    unfold run
    refine .congr (.bind (advance_costs hc) fun _ _ hc₁ _ _ => .bind (access_costs hc₁ name)
      fun _ _ hc₂ _ _ => .bind (advance_costs hc₂) fun _ _ hc₃ _ _ =>
      .bind (run_costs hσ value hproper.2.2 hc₃) fun _ _ hc₄ _ _ => emitWith_costs hc₄ _ _)
      (by simp [Legal]) ?_
    ext <;> simp [footprint, size_access]
    omega
  | setProperty target name value, c, hproper, hc => by
    simp only [symbols, List.forall_mem_append, List.forall_mem_cons] at hproper
    unfold run
    refine .congr (.bind (run_costs hσ target hproper.1 hc) fun _ _ hc₁ _ _ => .bind (advance_costs hc₁)
      fun _ _ hc₂ _ _ => .bind (advance_costs hc₂) fun _ _ hc₃ _ _ => .bind (nameConstant_costs hc₃ name)
      fun _ _ hc₄ _ _ => .bind (advance_costs hc₄) fun _ _ hc₅ _ _ =>
      .bind (run_costs hσ value hproper.2.2.2.2 hc₅) fun _ _ hc₆ _ _ => emitWith_costs hc₆ _ _)
      (by simp [Legal]) ?_
    ext <;> simp [footprint] <;> omega

theorem runArguments_costs (hσ : σ.Reserved) : ∀ (arguments : List Expression) {c : Compiler},
    (∀ s ∈ listSymbols arguments, s.Proper) → c.Stands σ →
    Costs (runArguments arguments) c (arguments.length ≤ maxArity ∧ ListLegal arguments σ)
      (listFootprint arguments σ) σ fun _ _ => True
  | [], c, _, hc => .congr (.pure hc trivial) (by simp [ListLegal]) rfl
  | e :: more, c, hproper, hc => by
    have := reads_runMore 1 more
    simp only [listSymbols, List.forall_mem_append] at hproper
    refine .congr (.bind (run_costs hσ e hproper.1 hc) fun _ _ hc₁ _ _ =>
      runMore_costs hσ 1 (by decide) more hproper.2 hc₁) ?_ rfl
    rw [List.length_cons, ListLegal, Nat.add_comm]
    tauto

theorem runMore_costs (hσ : σ.Reserved) (count : Nat) (hcount : count ≤ maxArity) :
    ∀ (arguments : List Expression) {c : Compiler},
    (∀ s ∈ moreSymbols arguments, s.Proper) → c.Stands σ →
    Costs (runMore count arguments) c (count + arguments.length ≤ maxArity ∧ ListLegal arguments σ)
      (listFootprint arguments σ) σ fun _ _ => True
  | [], c, _, hc => .congr (.pure hc trivial) (by simp [ListLegal, hcount]) rfl
  | e :: more, c, hproper, hc => by
    have := reads_runMore (count + 1) more
    simp only [moreSymbols, List.forall_mem_append, List.forall_mem_cons] at hproper
    refine .congr (.bind (advance_costs hc) fun _ _ hc₁ _ _ => .bind (run_costs hσ e hproper.2.1 hc₁)
      fun _ _ hc₂ _ _ => .bind (errorIf_costs hc₂ _ _) fun _ _ hc₃ _ hfew =>
      runMore_costs hσ (count + 1) (Nat.lt_of_le_of_ne hcount hfew) more hproper.2.2 hc₃) ?_ ?_
    · rw [List.length_cons, ListLegal]
      constructor
      · exact fun ⟨h, he, hmore⟩ => ⟨trivial, he, by omega, by omega, hmore⟩
      · exact fun ⟨_, he, _, h, hmore⟩ => ⟨by omega, he, hmore⟩
    · ext <;> simp [listFootprint]

end

end Expression

/-! ## Parts of statements -/

namespace Setting

variable {σ : Setting}

theorem Settled.enter (h : σ.Settled) : σ.enter.Settled := ⟨settled_enter h.here, h.outer⟩

theorem Settled.define (h : σ.Settled) (name : String) : (σ.define name).Settled :=
  ⟨settled_define h.here name, by rw [outer_define]; exact h.outer⟩

theorem Settled.within (h : σ.Settled) (hasSuperclass : Bool) : (σ.within hasSuperclass).Settled :=
  ⟨h.here, h.outer⟩

theorem Settled.begin (h : σ.Settled) (kind : FunctionKind) : (σ.begin kind).Settled :=
  ⟨settled_begin σ kind, List.forall_mem_cons.2 ⟨h.here, h.outer⟩⟩

end Setting

section Parts

variable {c : Compiler} {σ : Setting}

theorem runValue_costs (hσ : σ.Reserved) (hc : c.Stands σ) (value : Option Expression)
    (hproper : ∀ s ∈ Expression.optionSymbols value, s.Proper) :
    Costs (runValue value) c (Expression.OptionLegal value σ) (value.elim (.bytes 1) (·.footprint σ)) σ
      fun _ _ => True := by
  cases value with
  | none => exact emit_costs hc _
  | some e =>
    exact .congr (.bind (advance_costs hc) fun _ _ hc₁ _ _ => e.run_costs hσ hproper hc₁)
      (by simp [Expression.OptionLegal]) (by ext <;> simp)

theorem proper_of_variable {name : String} {value : Option Expression}
    (hproper : ∀ s ∈ variableSymbols name value, s.Proper) :
    (Symbol.name name).Proper ∧ ∀ s ∈ Expression.optionSymbols value, s.Proper := by
  cases value with
  | none => exact ⟨hproper _ (by simp [variableSymbols]), nofun⟩
  | some e =>
    simp only [variableSymbols, List.forall_mem_append, List.forall_mem_cons] at hproper
    exact ⟨hproper.2.1, hproper.2.2.2.1⟩

theorem runVariable_costs (hs : σ.Settled) (hc : c.Stands σ) (name : String) (value : Option Expression)
    (hproper : ∀ s ∈ variableSymbols name value, s.Proper) :
    Costs (runVariable name value) c (VariableLegal name value σ) (variableFootprint name value σ)
      (σ.define name) fun _ _ => True := by
  obtain ⟨hname, hvalue⟩ := proper_of_variable hproper
  have := reads_runValue value
  refine .congr (.bind (runName_costs hs.here hc name) fun global _ hc₁ _ _ =>
    .bind (runValue_costs (hs.reserved.initializing hname) hc₁ value hvalue) fun _ _ hc₂ _ _ =>
    .bind (advance_costs hc₂) fun _ _ hc₃ _ _ => defineVariable_costs none global hc₃)
    (by simp [VariableLegal]) ?_
  unfold variableFootprint Setting.definition
  by_cases hglobal : σ.here.depth = 0
  · ext <;> simp [hglobal]
    omega
  · ext <;> simp [hglobal]

theorem Initializer.run_costs (hs : σ.Settled) (hc : c.Stands σ) (init : Initializer)
    (hproper : ∀ s ∈ init.symbols, s.Proper) :
    Costs init.run c (init.Legal σ) (init.footprint σ) (init.after σ) fun _ _ => True := by
  cases init with
  | none => exact advance_costs hc
  | var name value =>
    have := reads_runVariable name value
    exact .congr (.bind (advance_costs hc) fun _ _ hc₁ _ _ => runVariable_costs hs hc₁ name value hproper)
      (by simp [Legal]) (by ext <;> simp [footprint])
  | expression e =>
    simp only [symbols, List.forall_mem_append] at hproper
    exact .congr (.bind (e.run_costs hs.reserved hproper.1 hc) fun _ _ hc₁ _ _ => .bind (advance_costs hc₁)
      fun _ _ hc₂ _ _ => emit_costs hc₂ _) (by simp [Legal]) (by ext <;> simp [footprint])

/-- The result is where the distance of the jump goes that leaves the loop. -/
theorem runCondition_costs (hσ : σ.Reserved) (hc : c.Stands σ) (condition : Option Expression)
    (hproper : ∀ s ∈ Expression.optionSymbols condition, s.Proper) :
    Costs (runCondition condition) c (Expression.OptionLegal condition σ) (conditionFootprint condition σ) σ
      fun leave _ => leave = condition.map fun e => c.draft.chunk.size + (e.footprint σ).size + 1 := by
  cases condition with
  | none =>
    exact .congr (.bind (advance_costs hc) fun _ _ hc₁ _ _ => .pure hc₁ rfl)
      (by simp [Expression.OptionLegal]) rfl
  | some e =>
    refine .congr (.bind (e.run_costs hσ hproper hc) fun _ c₁ hc₁ h₁ _ => .bind (advance_costs hc₁)
      fun _ c₂ hc₂ h₂ _ => .bind (emitJump_costs hc₂ _) fun onFalse c₃ hc₃ h₃ hjump =>
      .bind (emit_costs hc₃ _) fun _ c₄ hc₄ h₄ _ => .pure hc₄ ?_) (by simp [Expression.OptionLegal]) ?_
    · have := h₁.size
      have := h₂.size
      simp only [Footprint.size_zero, Option.map_some, Option.some.injEq] at *
      omega
    · ext <;> simp [conditionFootprint]

/-- The result is where the loop goes back to. -/
theorem runIncrement_costs (hσ : σ.Reserved) (hc : c.Stands σ) {start distance : Nat}
    (hstart : c.draft.chunk.size = start + distance) (increment : Option Expression)
    (hproper : ∀ s ∈ Expression.optionSymbols increment, s.Proper) :
    Costs (runIncrement start increment) c
      (Expression.OptionLegal increment σ ∧ ∀ e, increment = some e →
        Near ((e.footprint σ).size + 4) ∧ Near (distance + (incrementFootprint increment σ).size))
      (incrementFootprint increment σ) σ
      fun next _ => next = increment.elim start fun _ => c.draft.chunk.size + 3 := by
  cases increment with
  | none =>
    exact .congr (.bind (advance_costs hc) fun _ _ hc₁ _ _ => .pure hc₁ rfl)
      (by simp [Expression.OptionLegal]) rfl
  | some e =>
    refine .congr (.bind (emitJump_costs hc _) fun toBody c₁ hc₁ h₁ hjump => .known
      (a := c₁.draft.chunk.size) rfl (.bind (e.run_costs hσ hproper hc₁) fun _ c₂ hc₂ h₂ _ =>
      .bind (emit_costs hc₂ _) fun _ c₃ hc₃ h₃ _ => .bind (advance_costs hc₃) fun _ c₄ hc₄ h₄ _ =>
      .bind (emitLoop_costs hc₄ (distance + (e.footprint σ).size + 7) ?_ ?_) fun _ c₅ hc₅ h₅ _ =>
      .bind (patchJump_costs hc₅ ((e.footprint σ).size + 4) ?_) fun _ c₆ hc₆ h₆ _ => .pure hc₆ ?_)) ?_ ?_
    · simp only [h₄.size, h₃.size, h₂.size, h₁.size, Footprint.size_bytes, Footprint.size_zero]
      omega
    · simp only [h₄.size, h₃.size, h₂.size, h₁.size, Footprint.size_bytes, Footprint.size_zero]
      omega
    · simp only [h₅.size, h₄.size, h₃.size, h₂.size, h₁.size, Footprint.size_bytes, Footprint.size_zero]
      omega
    · exact h₁.size
    · have hsize : distance + (incrementFootprint (some e) σ).size =
          distance + (e.footprint σ).size + 7 := by
        simp only [incrementFootprint, Footprint.size_add, Footprint.size_bytes]
        omega
      simp only [hsize, Expression.OptionLegal, Option.some.injEq, forall_eq']
      tauto
    · ext <;> simp [incrementFootprint]
      omega

theorem runLeave_costs (hc : c.Stands σ) {leave : Option Nat} {condition : Option Expression}
    {offset : Expression → Nat} (hleave : leave = condition.map offset) (distance : Nat)
    (h : ∀ e, condition = some e → c.draft.chunk.size = offset e + 2 + distance) :
    Costs (runLeave leave) c (condition ≠ none → Near distance) (.bytes (if condition = none then 0 else 1))
      σ fun _ _ => True := by
  subst hleave
  cases condition with
  | none => exact .congr (.pure hc trivial) (by simp) rfl
  | some e =>
    exact .congr (.bind (patchJump_costs hc distance (h e rfl)) fun _ _ hc₁ _ _ => emit_costs hc₁ _)
      (by simp) (by ext <;> simp)

variable {body otherwise : Compile Unit} {k l : Nat} {P P' : Prop} {f g : Footprint}

theorem runIf_costs [Reads body k] (hσ : σ.Reserved) (hc : c.Stands σ) (condition : Expression)
    (hproper : ∀ s ∈ condition.symbols, s.Proper)
    (hbody : ∀ c₁ : Compiler, c₁.Stands σ → Costs body c₁ P f σ fun _ _ => True) :
    Costs (runIf condition body) c (condition.Legal σ ∧ P ∧ Near (f.size + 4))
      (condition.footprint σ + .bytes 4 + f + .bytes 4) σ fun _ _ => True := by
  refine .congr (.bind (advance_costs hc) fun _ _ hc₁ _ _ => .bind (condition.run_costs hσ hproper hc₁)
    fun _ _ hc₂ _ _ => .bind (advance_costs hc₂) fun _ _ hc₃ _ _ => .bind (emitJump_costs hc₃ _)
    fun _ _ hc₄ h₄ honFalse => .bind (emit_costs hc₄ _) fun _ _ hc₅ h₅ _ => .bind (hbody _ hc₅)
    fun _ _ hc₆ h₆ _ => .bind (emitJump_costs hc₆ _) fun _ _ hc₇ h₇ hatEnd =>
    .bind (patchJump_costs hc₇ (f.size + 4) ?_) fun _ _ hc₈ h₈ _ => .bind (emit_costs hc₈ _)
    fun _ _ hc₉ h₉ _ => patchJump_costs hc₉ 1 ?_) ?_ ?_
  · simp only [h₇.size, h₆.size, h₅.size, h₄.size, Footprint.size_bytes]
    omega
  · simp only [h₉.size, h₈.size, h₇.size, Footprint.size_bytes, Footprint.size_zero]
    omega
  · simp [near_of_lt]
  · ext <;> simp
    omega

theorem runIfElse_costs [Reads body k] [Reads otherwise l] (hσ : σ.Reserved) (hc : c.Stands σ)
    (condition : Expression)
    (hproper : ∀ s ∈ condition.symbols, s.Proper)
    (hbody : ∀ c₁ : Compiler, c₁.Stands σ → Costs body c₁ P f σ fun _ _ => True)
    (hotherwise : ∀ c₁ : Compiler, c₁.Stands σ → Costs otherwise c₁ P' g σ fun _ _ => True) :
    Costs (runIfElse condition body otherwise) c
      (condition.Legal σ ∧ P ∧ Near (f.size + 4) ∧ P' ∧ Near (1 + g.size))
      (condition.footprint σ + .bytes 4 + f + .bytes 4 + g) σ fun _ _ => True := by
  refine .congr (.bind (advance_costs hc) fun _ _ hc₁ _ _ => .bind (condition.run_costs hσ hproper hc₁)
    fun _ _ hc₂ _ _ => .bind (advance_costs hc₂) fun _ _ hc₃ _ _ => .bind (emitJump_costs hc₃ _)
    fun _ _ hc₄ h₄ honFalse => .bind (emit_costs hc₄ _) fun _ _ hc₅ h₅ _ => .bind (hbody _ hc₅)
    fun _ _ hc₆ h₆ _ => .bind (emitJump_costs hc₆ _) fun _ _ hc₇ h₇ hatEnd =>
    .bind (patchJump_costs hc₇ (f.size + 4) ?_) fun _ _ hc₈ h₈ _ => .bind (emit_costs hc₈ _)
    fun _ _ hc₉ h₉ _ => .bind (advance_costs hc₉) fun _ _ hc₁₀ h₁₀ _ => .bind (hotherwise _ hc₁₀)
    fun _ _ hc₁₁ h₁₁ _ => patchJump_costs hc₁₁ (1 + g.size) ?_) ?_ ?_
  · simp only [h₇.size, h₆.size, h₅.size, h₄.size, Footprint.size_bytes]
    omega
  · simp only [h₁₁.size, h₁₀.size, h₉.size, h₈.size, h₇.size, Footprint.size_bytes, Footprint.size_zero]
    omega
  · simp
  · ext <;> simp <;> omega

theorem runWhile_costs [Reads body k] (hσ : σ.Reserved) (hc : c.Stands σ) (condition : Expression)
    (hproper : ∀ s ∈ condition.symbols, s.Proper)
    (hbody : ∀ c₁ : Compiler, c₁.Stands σ → Costs body c₁ P f σ fun _ _ => True) :
    Costs (runWhile condition body) c
      (condition.Legal σ ∧ P ∧ Near ((condition.footprint σ).size + f.size + 7))
      (condition.footprint σ + .bytes 4 + f + .bytes 4) σ fun _ _ => True := by
  refine .known (a := c.draft.chunk.size) rfl ?_
  refine .congr (.bind (advance_costs hc) fun _ _ hc₁ h₁ _ => .bind (condition.run_costs hσ hproper hc₁)
    fun _ _ hc₂ h₂ _ => .bind (advance_costs hc₂) fun _ _ hc₃ h₃ _ => .bind (emitJump_costs hc₃ _)
    fun _ _ hc₄ h₄ honFalse => .bind (emit_costs hc₄ _) fun _ _ hc₅ h₅ _ => .bind (hbody _ hc₅)
    fun _ _ hc₆ h₆ _ => .bind (emitLoop_costs hc₆ ((condition.footprint σ).size + f.size + 7) ?_ ?_)
    fun _ _ hc₇ h₇ _ => .bind (patchJump_costs hc₇ (1 + f.size + 3) ?_) fun _ _ hc₈ h₈ _ =>
    emit_costs hc₈ _) ?_ ?_
  · simp only [h₆.size, h₅.size, h₄.size, h₃.size, h₂.size, h₁.size, Footprint.size_bytes, Footprint.size_zero]
    omega
  · simp only [h₆.size, h₅.size, h₄.size, h₃.size, h₂.size, h₁.size, Footprint.size_bytes, Footprint.size_zero]
    omega
  · simp only [h₇.size, h₆.size, h₅.size, h₄.size, Footprint.size_bytes]
    omega
  · -- The way out is shorter than the way back.
    simp only [Near, true_and, and_true]
    refine and_congr_right fun _ => and_congr_right fun _ => (and_iff_left_of_imp fun h => ?_).symm
    omega
  · ext <;> simp
    omega

theorem Initializer.after_settled (hs : σ.Settled) (init : Initializer) : (init.after σ).Settled := by
  cases init with
  | none => exact hs
  | var name value => exact hs.define name
  | expression e => exact hs

theorem Initializer.encloses_after {τ : Setting} (h : σ.Encloses τ) (init : Initializer) :
    σ.Encloses (init.after τ) := by
  cases init with
  | none => exact h
  | var name value => exact h.define name
  | expression e => exact h

theorem runFor_costs [Reads body k] (hs : σ.Settled) (hc : c.Stands σ) (init : Initializer)
    (condition increment : Option Expression) (hinit : ∀ s ∈ init.symbols, s.Proper)
    (hcondition : ∀ s ∈ Expression.optionSymbols condition, s.Proper)
    (hincrement : ∀ s ∈ Expression.optionSymbols increment, s.Proper)
    (hbody : ∀ c₁ : Compiler, c₁.Stands (init.after σ.enter) →
      Costs body c₁ P f (init.after σ.enter) fun _ _ => True) :
    Costs (runFor init condition increment body) c
      (init.Legal σ.enter ∧ Expression.OptionLegal condition (init.after σ.enter) ∧
        Expression.OptionLegal increment (init.after σ.enter) ∧ P ∧
        ForNear condition increment f.size (init.after σ.enter))
      (init.footprint σ.enter + conditionFootprint condition (init.after σ.enter) +
        incrementFootprint increment (init.after σ.enter) + f +
        .bytes (if condition = none then 3 else 4) + σ.leaving (init.after σ.enter)) σ
      fun _ _ => True := by
  set τ := init.after σ.enter with hτ
  have hτs : τ.Settled := init.after_settled hs.enter
  have hinner : σ.Encloses τ := init.encloses_after (Setting.encloses_enter σ)
  have := init.reads_run
  have := reads_runCondition condition
  have := fun start => reads_runIncrement start increment
  refine .congr (.bind (beginScope_costs hc) fun _ _ hc₁ _ _ => .bind (advance_costs hc₁)
    fun _ _ hc₂ _ _ => .bind (init.run_costs hs.enter hc₂ hinit) fun _ c₃ hc₃ _ _ =>
    .known (a := c₃.draft.chunk.size) rfl (.bind (runCondition_costs hτs.reserved hc₃ condition hcondition)
    fun leave c₄ hc₄ h₄ hleave => .bind (runIncrement_costs hτs.reserved hc₄ h₄.size increment hincrement)
    fun next c₅ hc₅ h₅ hnext => .bind (hbody _ hc₅) fun _ c₆ hc₆ h₆ _ =>
    .bind (emitLoop_costs hc₆ (increment.elim (conditionFootprint condition τ).size
      (fun e => (e.footprint τ).size + 4) + f.size + 3) ?_ ?_) fun _ c₇ hc₇ h₇ _ =>
    .bind (runLeave_costs hc₇ hleave (1 + (incrementFootprint increment τ).size + f.size + 3) ?_)
    fun _ _ hc₈ _ _ => endScope_costs hs.here hinner hc₈)) ?_ ?_
  · subst hnext
    cases increment <;>
    · simp only [h₆.size, h₅.size, h₄.size, Option.elim, incrementFootprint, Footprint.size_add,
        Footprint.size_bytes, Footprint.size_zero]
      omega
  · subst hnext
    cases increment <;>
    · simp only [h₆.size, h₅.size, h₄.size, Option.elim, incrementFootprint, Footprint.size_add,
        Footprint.size_bytes, Footprint.size_zero]
      omega
  · rintro e rfl
    simp only [h₇.size, h₆.size, h₅.size, h₄.size, conditionFootprint, Footprint.size_add,
      Footprint.size_bytes]
    omega
  · unfold ForNear
    tauto
  · cases condition <;> ext <;> simp [conditionFootprint] <;> omega

theorem emitReturn_costs (hc : c.Stands σ) :
    Costs emitReturn c True (.bytes (if σ.here.kind = .initializer then 3 else 2)) σ fun _ _ => True := by
  have hkind : c.draft.kind = σ.here.kind := congrArg FunctionScope.kind hc.here
  unfold emitReturn
  refine .known (a := c) rfl ?_
  by_cases hinit : σ.here.kind = .initializer
  · rw [if_pos (hkind.trans hinit), if_pos hinit]
    exact .congr (.bind (emitWith_costs hc _ _) fun _ _ hc₁ _ _ => emit_costs hc₁ _) (by simp) rfl
  · rw [if_neg (hkind ▸ hinit), if_neg hinit]
    exact .congr (.bind (emit_costs hc _) fun _ _ hc₁ _ _ => emit_costs hc₁ _) (by simp) rfl

theorem runReturn_costs (hσ : σ.Reserved) (hc : c.Stands σ) (value : Option Expression)
    (hproper : ∀ s ∈ Expression.optionSymbols value, s.Proper) :
    Costs (runReturn value) c ((Statement.ret value).Legal σ) ((Statement.ret value).footprint σ) σ
      fun _ _ => True := by
  have hkind : ∀ c₁ : Compiler, c₁.Stands σ → c₁.draft.kind = σ.here.kind :=
    fun c₁ hc₁ => congrArg FunctionScope.kind hc₁.here
  have hresult : ∀ c₁ : Compiler, c₁.Stands σ → Costs (runResult value) c₁
      ((value ≠ none → σ.here.kind ≠ .initializer) ∧ Expression.OptionLegal value σ)
      ((Statement.ret value).footprint σ) σ fun _ _ => True := by
    intro c₁ hc₁
    cases value with
    | none =>
      exact .congr (.bind (advance_costs hc₁) fun _ _ hc₂ _ _ => emitReturn_costs hc₂)
        (by simp [Expression.OptionLegal]) (by ext <;> simp [Statement.footprint])
    | some e =>
      refine .known (a := c₁) rfl ?_
      rw [hkind c₁ hc₁]
      exact .congr (.bind (errorIf_costs hc₁ _ _) fun _ _ hc₂ _ _ => .bind (e.run_costs hσ hproper hc₂)
        fun _ _ hc₃ _ _ => .bind (advance_costs hc₃) fun _ _ hc₄ _ _ => emit_costs hc₄ _)
        (by simp [Expression.OptionLegal]) (by ext <;> simp [Statement.footprint])
  unfold runReturn
  refine .known (a := c) rfl ?_
  rw [hkind c hc]
  exact .congr (.bind (errorIf_costs hc _ _) fun _ c₁ hc₁ _ _ => hresult c₁ hc₁)
    (by simp [Statement.Legal]) (by ext <;> simp)

theorem runBlock_costs [Reads body k] {τ : Setting} (hs : σ.Settled) (hc : c.Stands σ)
    (hinner : σ.Encloses τ)
    (hbody : ∀ c₁ : Compiler, c₁.Stands σ.enter → Costs body c₁ P f τ fun _ _ => True) :
    Costs (runBlock body) c P (f + σ.leaving τ) σ fun _ _ => True :=
  .congr (.bind (beginScope_costs hc) fun _ _ hc₁ _ _ => .bind (hbody _ hc₁) fun _ _ hc₂ _ _ =>
    .bind (advance_costs hc₂) fun _ _ hc₃ _ _ => endScope_costs hs.here hinner hc₃) (by simp)
    (by ext <;> simp)

theorem runFunction_costs [Reads body k] (hs : σ.Settled) (hc : c.Stands σ) (name : String)
    (hbody : ∀ c₁ : Compiler, c₁.Stands (σ.define name) →
      Costs body c₁ P f (σ.define name) fun _ _ => True) :
    Costs (runFunction name body) c (σ.Declarable name ∧ P) (f + σ.definition) (σ.define name)
      fun _ _ => True := by
  refine .congr (.bind (runName_costs hs.here hc name) fun global _ hc₁ _ _ =>
    .bind (markInitialized_costs none hc₁) fun _ _ hc₂ _ _ => .bind (hbody _ hc₂)
    fun _ _ hc₃ _ _ => defineVariable_costs (some σ.here.depth) global hc₃) (by simp) ?_
  unfold Setting.definition
  by_cases hglobal : σ.here.depth = 0
  · ext <;> simp [hglobal]
    omega
  · ext <;> simp [hglobal]

theorem runMethod_costs [Reads body k] (hc : c.Stands σ) (name : String)
    (hbody : ∀ c₁ : Compiler, c₁.Stands σ → Costs body c₁ P f σ fun _ _ => True) :
    Costs (runMethod name body) c P (f + .constant 2) σ fun _ _ => True := by
  refine .congr (.bind (advance_costs hc) fun _ _ hc₁ _ _ => .bind (nameConstant_costs hc₁ name)
    fun _ _ hc₂ _ _ => .bind (hbody _ hc₂) fun _ _ hc₃ _ _ => emitWith_costs hc₃ _ _) (by simp) ?_
  ext <;> simp
  omega

end Parts

end LoxMachine
