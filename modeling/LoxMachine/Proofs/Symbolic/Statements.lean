import LoxMachine.Proofs.Grammar.Legality
import LoxMachine.Proofs.Symbolic.Expressions
import LoxMachine.Proofs.Symbolic.Scopes

/-!
# The code of statements

* `Setting.receivers_define`, `Setting.receivers_begin`, …: how the variables that `this` and `super` stand
  for change from one point of a program to another.
* `runVariable_emits`, …, `runMethod_emits`: what the parts of statements and declarations write, if the
  trees in them write what is given.
-/

namespace LoxMachine

open Compile Symbolic

set_option synthInstance.maxSize 4096

variable {σ τ : Setting} {r : Receivers} {name : String}

/-! ## Receivers -/

namespace Setting

theorem variable_push {other : String} (hne : other ≠ name) (depth : Option Nat) :
    Setting.variable { σ with here := σ.here.push other depth } name = σ.variable name := by
  have hlookup : lookup name (functions { σ with here := σ.here.push other depth }) =
      lookup name σ.functions := by
    simp only [functions, lookup, FunctionScope.push, Draft.findLocal, if_neg hne]
  unfold Setting.variable
  rw [hlookup]

theorem variable_define {other : String} (hne : other ≠ name) : (σ.define other).variable name = σ.variable name := by
  unfold define
  split
  · rfl
  · exact variable_push hne _

theorem variable_global {name' : String} (h : σ.variable name = .global name') : name' = name := by
  unfold Setting.variable at h
  split at h
  · cases h
    rfl
  · split at h <;> cases h

/-- A variable of the function itself is in scope there. -/
theorem slot_lt {slot : Nat} {name' : String} (h : σ.variable name = .own slot name') :
    slot < σ.here.locals.length := by
  unfold Setting.variable at h
  cases hfound : lookup name σ.functions with
  | none =>
    rw [hfound] at h
    cases h
  | some found =>
    obtain ⟨place, v⟩ := found
    rw [hfound] at h
    dsimp only at h
    split at h
    · cases h
    rename_i hplace
    cases h
    rw [functions, lookup] at hfound
    split at hfound
    · rename_i hlocal
      cases hfound
      exact Draft.lt_length_of_findLocal hlocal
    · exact absurd (lookup_lt hfound) hplace

theorem receivers_initializing (hname : (Symbol.name name).Proper) :
    (σ.initializing name).receivers = σ.receivers := by
  unfold receivers initializing
  split
  · rfl
  · obtain ⟨hthis, hsuper⟩ := hname.name rfl
    exact congrArg₂ Receivers.mk (variable_push hthis _) (variable_push hsuper _)

theorem receivers_define (hname : (Symbol.name name).Proper) :
    (σ.define name).receivers = σ.receivers := by
  unfold receivers define
  split
  · rfl
  · obtain ⟨hthis, hsuper⟩ := hname.name rfl
    exact congrArg₂ Receivers.mk (variable_push hthis _) (variable_push hsuper _)

/-- An inner function sees the variables around it. -/
theorem variable_begin {kind : FunctionKind} (hne : Draft.receiver kind ≠ name) :
    (σ.begin kind).variable name = (σ.variable name).around σ.outer.length := by
  have hlookup : lookup name (σ.begin kind).functions = lookup name σ.functions := by
    simp only [functions, Setting.begin, lookup, Draft.findLocal, if_neg hne]
  unfold Setting.variable
  rw [hlookup]
  cases hfound : lookup name σ.functions with
  | none => rfl
  | some found =>
    obtain ⟨place, v⟩ := found
    have hlt : place.1 < σ.outer.length + 1 := lookup_lt hfound
    have hin : place.1 < (σ.begin kind).outer.length := hlt
    simp only [if_pos hin]
    split
    · rfl
    · have hlevel : place.1 = σ.outer.length := by omega
      rw [Variable.around, ← hlevel]

theorem receivers_begin (σ : Setting) (kind : FunctionKind) :
    (σ.begin kind).receivers = σ.receivers.enter kind σ.outer.length := by
  unfold receivers Receivers.enter
  have hsuper : Draft.receiver kind ≠ "super" := by cases kind <;> decide
  rw [variable_begin hsuper]
  by_cases hkind : receives kind = true
  · have hthis : (σ.begin kind).variable "this" = .own 0 "this" := by
      have hreceiver : Draft.receiver kind = "this" := by
        cases kind <;> first | rfl | cases hkind
      simp [Setting.variable, functions, Setting.begin, lookup, Draft.findLocal, hreceiver]
    rw [hthis, if_pos hkind]
  · have hthis : Draft.receiver kind ≠ "this" := by
      cases kind <;> first | decide | exact absurd rfl hkind
    rw [variable_begin hthis, if_neg hkind]

theorem receivers_methods (hname : (Symbol.name name).Proper) (superclass : Option String) :
    (methodsSetting name superclass σ).receivers =
      σ.receivers.within superclass (σ.define name).here.locals.length := by
  cases superclass with
  | none => exact receivers_define hname
  | some s =>
    have hreceivers := receivers_define (σ := σ) hname
    have hthis :
        ((σ.define name).enter.define "super").variable "this" = (σ.define name).variable "this" := by
      rw [Setting.define_local _ (Nat.succ_ne_zero _)]
      exact variable_push (by decide) _
    have hsuper : ((σ.define name).enter.define "super").variable "super" =
        .own (σ.define name).here.locals.length "super" := by
      rw [Setting.define_local _ (Nat.succ_ne_zero _)]
      simp [Setting.variable, functions, lookup, Draft.findLocal, FunctionScope.push, enter]
    change Receivers.mk _ _ = _
    rw [← hreceivers]
    exact congrArg₂ Receivers.mk hthis hsuper

theorem receivers_start : start.receivers = .none := by
  simp [receivers, Receivers.none, Setting.variable, functions, start, lookup, Draft.findLocal]

end Setting

theorem Initializer.receivers_after (init : Initializer) (hproper : ∀ s ∈ init.symbols, s.Proper) :
    (init.after σ).receivers = σ.receivers := by
  cases init with
  | none | expression => rfl
  | var name value => exact Setting.receivers_define (proper_of_variable hproper).1

/-! ## Parts of statements -/

section Parts

variable {c : Compiler}

theorem runValue_emits (hr : r = σ.receivers) (hc : c.Ongoing σ) (value : Option Expression) :
    Emits (runValue value) c (valueCode value σ r) (value.elim [] fun e => (e.footprint σ).captured) σ
      fun _ _ => True := by
  cases value with
  | none => exact emit_emits hc .pushNil
  | some e => exact .bind (advance_emits hc) fun _ _ hc₁ _ _ => e.run_emits hr hc₁

theorem runVariable_emits (hr : r = σ.receivers) (hc : c.Ongoing σ) (hname : (Symbol.name name).Proper)
    (value : Option Expression) :
    Emits (runVariable name value) c (variableCode name value σ r)
      (value.elim [] fun e => (e.footprint (σ.initializing name)).captured) (σ.define name)
      fun _ _ => True := by
  have := reads_runValue value
  have hinside : r = (σ.initializing name).receivers := hr.trans (Setting.receivers_initializing hname).symm
  refine .congr (.bind (runName_emits hc name) fun global _ hc₁ _ hglobal =>
    .bind (runValue_emits hinside hc₁ value) fun _ _ hc₂ h₂ _ => .bind (advance_emits hc₂)
    fun _ _ hc₃ h₃ _ => defineVariable_emits none hc₃ fun h => (hglobal h).mono (h₂.le.trans h₃.le)) ?_ ?_
  · simp [variableCode]
  · simp

theorem Initializer.run_emits (hr : r = σ.receivers) (hc : c.Ongoing σ) (init : Initializer)
    (hproper : ∀ s ∈ init.symbols, s.Proper) :
    Emits init.run c (init.code σ r) (init.uses σ) (init.after σ) fun _ _ => True := by
  cases init with
  | none => exact advance_emits hc
  | var name value =>
    have := reads_runVariable name value
    exact .bind (advance_emits hc) fun _ _ hc₁ _ _ =>
      runVariable_emits hr hc₁ (proper_of_variable hproper).1 value
  | expression e =>
    exact .congr (.bind (e.run_emits hr hc) fun _ _ hc₁ _ _ => .bind (advance_emits hc₁)
      fun _ _ hc₂ _ _ => emit_emits hc₂ .pop) (by simp [code]) (by simp [uses])

variable {body otherwise : Compile Unit} {k l : Nat} {a b : Code} {ps qs : List (Nat × Nat)}

theorem runIf_emits [Reads body k] (hr : r = σ.receivers) (hc : c.Ongoing σ) (condition : Expression)
    (hbody : ∀ c₁ : Compiler, c₁.Ongoing σ → Emits body c₁ a ps σ fun _ _ => True) :
    Emits (runIf condition body) c (condition.code σ r ++ branch (.op .pop :: a) [.op .pop])
      ((condition.footprint σ).captured ++ ps) σ fun _ _ => True := by
  have hgroup : runIf condition body = (do
      advance; condition.run; advance
      let onFalse ← emitJump .jumpIfFalse
      (do emit .pop; body)
      let atEnd ← emitJump .jump
      patchJump onFalse
      emit .pop
      patchJump atEnd) := by
    simp only [runIf, bind_assoc]
  rw [hgroup]
  exact .congr (.bind (advance_emits hc) fun _ _ hc₁ _ _ => .bind (condition.run_emits hr hc₁)
    fun _ _ hc₂ _ _ => .bind (advance_emits hc₂) fun _ _ hc₃ _ _ => branch_emits hc₃
      (fun _ hc₄ => .bind (emit_emits hc₄ .pop) fun _ _ hc₅ _ _ => hbody _ hc₅)
      fun _ hc₄ => emit_emits hc₄ .pop) (by simp) (by simp)

theorem runIfElse_emits [Reads body k] [Reads otherwise l] (hr : r = σ.receivers) (hc : c.Ongoing σ)
    (condition : Expression)
    (hbody : ∀ c₁ : Compiler, c₁.Ongoing σ → Emits body c₁ a ps σ fun _ _ => True)
    (hotherwise : ∀ c₁ : Compiler, c₁.Ongoing σ → Emits otherwise c₁ b qs σ fun _ _ => True) :
    Emits (runIfElse condition body otherwise) c
      (condition.code σ r ++ branch (.op .pop :: a) (.op .pop :: b))
      ((condition.footprint σ).captured ++ (ps ++ qs)) σ fun _ _ => True := by
  have hgroup : runIfElse condition body otherwise = (do
      advance; condition.run; advance
      let onFalse ← emitJump .jumpIfFalse
      (do emit .pop; body)
      let atEnd ← emitJump .jump
      patchJump onFalse
      (do emit .pop; advance; otherwise)
      patchJump atEnd) := by
    simp only [runIfElse, bind_assoc]
  rw [hgroup]
  exact .congr (.bind (advance_emits hc) fun _ _ hc₁ _ _ => .bind (condition.run_emits hr hc₁)
    fun _ _ hc₂ _ _ => .bind (advance_emits hc₂) fun _ _ hc₃ _ _ => branch_emits hc₃
      (fun _ hc₄ => .bind (emit_emits hc₄ .pop) fun _ _ hc₅ _ _ => hbody _ hc₅)
      fun _ hc₄ => .bind (emit_emits hc₄ .pop) fun _ _ hc₅ _ _ => .bind (advance_emits hc₅)
        fun _ _ hc₆ _ _ => hotherwise _ hc₆) (by simp) (by simp)

/-! ## Loops -/

/-- The increment of a loop whose condition has `head` bytes. The answer is where the body goes back to. -/
theorem runIncrement_emits (hr : r = σ.receivers) (hc : c.Ongoing σ) {start head : Nat}
    (hsize : c.draft.chunk.size = start + head) (next : Option Expression) :
    Emits (runIncrement start next) c (increment head (next.map (·.code σ r)))
      (Expression.optionFootprint next σ).captured σ
      fun s c' => s + turn head (next.map (·.code σ r)) = c'.draft.chunk.size := by
  cases next with
  | none =>
    refine .congr (.bind (advance_emits hc) fun _ c₁ hc₁ h₁ _ => .pure hc₁ ?_) rfl rfl
    change start + head = _
    rw [h₁.size, ← hsize]
    rfl
  | some e =>
    have hjump : ∀ c₁ : Compiler, c₁.Ongoing σ → c₁.draft.chunk.size = c.draft.chunk.size + 3 → Emits (do
        let increment ← codeSize
        e.run
        emit .pop
        advance
        emitLoop start
        return increment) c₁
        (e.code σ r ++ [.op .pop, .jump .loop (head + 3 + extent (e.code σ r) + 1 + 3)])
        (e.footprint σ).captured σ fun s _ => s = start + head + 3 := by
      intro c₁ hc₁ hsize₁
      refine .known (r := c₁.draft.chunk.size) rfl (.congr (.bind (e.run_emits hr hc₁) fun _ c₂ hc₂ h₂ _ =>
        .bind (emit_emits hc₂ .pop) fun _ c₃ hc₃ h₃ _ => .bind (advance_emits hc₃) fun _ c₄ hc₄ h₄ _ =>
        .bind (emitLoop_emits hc₄ (head + 3 + extent (e.code σ r) + 1) ?_)
          fun _ _ hc₅ _ _ => .pure hc₅ ?_) ?_ ?_)
      · rw [h₄.size, h₃.size, h₂.size, hsize₁, hsize]
        simp only [extent_nil, extent_cons, Symbolic.Instruction.size]
        omega
      · rw [hsize₁, hsize]
      · simp
      · simp
    intro herr
    obtain ⟨hc', hw, hs⟩ := across_emits .jump hc hjump herr
    refine ⟨hc', hw, (congrArg (· + _) hs).trans (.trans ?_ hw.size.symm)⟩
    rw [hsize]
    simp only [turn, Option.map_some, across, extent_cons, extent_append, extent_nil,
      Symbolic.Instruction.size]
    omega

/-- One time through a loop, after its condition. -/
theorem lap_emits [Reads body k] (hr : r = σ.receivers) (hc : c.Ongoing σ) {start : Nat} (head : Nat)
    (hsize : c.draft.chunk.size = start + head) (next : Option Expression)
    (hbody : ∀ c₁ : Compiler, c₁.Ongoing σ → Emits body c₁ a ps σ fun _ _ => True) :
    Emits (do
      let start ← runIncrement start next
      body
      emitLoop start) c (lap head (next.map (·.code σ r)) a)
      ((Expression.optionFootprint next σ).captured ++ ps) σ fun _ _ => True := by
  have := reads_runIncrement start next
  refine .congr (.bind (runIncrement_emits hr hc hsize next) fun s _ hc₁ _ hs => .bind (hbody _ hc₁)
    fun _ c₂ hc₂ h₂ _ => emitLoop_emits hc₂ (turn head (next.map (·.code σ r)) + extent a) ?_) ?_ ?_
  · rw [h₂.size, ← hs]
    omega
  · simp [lap]
  · simp

theorem runWhile_emits [Reads body k] (hr : r = σ.receivers) (hc : c.Ongoing σ) (condition : Expression)
    (hbody : ∀ c₁ : Compiler, c₁.Ongoing σ → Emits body c₁ a ps σ fun _ _ => True) :
    Emits (runWhile condition body) c (loop (some (condition.code σ r)) none a)
      ((condition.footprint σ).captured ++ ps) σ fun _ _ => True := by
  have hgroup : runWhile condition body = (do
      let start ← codeSize
      advance; condition.run; advance
      (do
        let onFalse ← emitJump .jumpIfFalse
        let x ← (do emit .pop; body; emitLoop start)
        patchJump onFalse
        return x)
      emit .pop) := by
    simp only [runWhile, bind_assoc, pure_bind]
  rw [hgroup]
  refine .known (r := c.draft.chunk.size) rfl (.congr (.bind (advance_emits hc) fun _ c₁ hc₁ h₁ _ =>
    .bind (condition.run_emits hr hc₁) fun _ c₂ hc₂ h₂ _ => .bind (advance_emits hc₂) fun _ c₃ hc₃ h₃ _ =>
    .bind (across_emits (S := fun _ => True) .jumpIfFalse hc₃ fun c₄ hc₄ hsize =>
      .bind (emit_emits hc₄ .pop) fun _ c₅ hc₅ h₅ _ => .bind (hbody _ hc₅) fun _ c₆ hc₆ h₆ _ =>
      emitLoop_emits hc₆ (extent (condition.code σ r) + 4 + extent a) ?_)
    fun _ _ hc₇ _ _ => emit_emits hc₇ .pop) ?_ ?_)
  · rw [h₆.size, h₅.size, hsize, h₃.size, h₂.size, h₁.size]
    simp only [extent_nil, extent_cons, Symbolic.Instruction.size]
    omega
  · simp [Symbolic.loop, lap, increment, turn]
  · simp

/-- A loop from its condition on. -/
theorem loop_emits [Reads body k] (hr : r = σ.receivers) (hc : c.Ongoing σ)
    (condition next : Option Expression)
    (hbody : ∀ c₁ : Compiler, c₁.Ongoing σ → Emits body c₁ a ps σ fun _ _ => True) :
    Emits (do
      let leave ← runCondition condition
      let start ← runIncrement c.draft.chunk.size next
      body
      emitLoop start
      runLeave leave) c
      (loop (condition.map (·.code σ r)) (next.map (·.code σ r)) a)
      ((Expression.optionFootprint condition σ).captured ++
        ((Expression.optionFootprint next σ).captured ++ ps)) σ fun _ _ => True := by
  have := reads_runIncrement c.draft.chunk.size next
  cases condition with
  | none =>
    have hgroup : (do
        let leave ← runCondition none
        let start ← runIncrement c.draft.chunk.size next
        body
        emitLoop start
        runLeave leave) = (do
        advance
        (do
          let start ← runIncrement c.draft.chunk.size next
          body
          emitLoop start) : Compile Unit) := by
      simp only [runCondition, runLeave, bind_assoc, pure_bind, bind_pure_unit]
    rw [hgroup]
    refine .congr (.bind (advance_emits hc) fun _ _ hc₁ h₁ _ =>
      lap_emits hr hc₁ 0 h₁.size next hbody) rfl rfl
  | some e =>
    have hgroup : (do
        let leave ← runCondition (some e)
        let start ← runIncrement c.draft.chunk.size next
        body
        emitLoop start
        runLeave leave) = (do
        e.run
        advance
        (do
          let onFalse ← emitJump .jumpIfFalse
          let x ← (do
            emit .pop
            (do
              let start ← runIncrement c.draft.chunk.size next
              body
              emitLoop start))
          patchJump onFalse
          return x)
        emit .pop : Compile Unit) := by
      simp only [runCondition, runLeave, bind_assoc, pure_bind]
    rw [hgroup]
    refine .congr (.bind (e.run_emits hr hc) fun _ c₁ hc₁ h₁ _ => .bind (advance_emits hc₁)
      fun _ c₂ hc₂ h₂ _ => .bind (across_emits (S := fun _ => True) .jumpIfFalse hc₂ fun c₃ hc₃ hsize =>
        .bind (emit_emits hc₃ .pop) fun _ c₄ hc₄ h₄ _ =>
          lap_emits hr hc₄ (extent (e.code σ r) + 4) ?_ next hbody)
      fun _ _ hc₅ _ _ => emit_emits hc₅ .pop) ?_ ?_
    · rw [h₄.size, hsize, h₂.size, h₁.size]
      simp only [extent_nil, extent_cons, Symbolic.Instruction.size]
      omega
    · simp [Symbolic.loop]
    · simp [Expression.optionFootprint]

theorem runFor_emits [Reads body k] (hs : σ.Settled) (hr : r = σ.receivers) (hc : c.Ongoing σ)
    (init : Initializer) (hproper : ∀ s ∈ init.symbols, s.Proper) (condition next : Option Expression)
    (hbody : ∀ c₁ : Compiler, c₁.Ongoing (init.after σ.enter) →
      Emits body c₁ a ps (init.after σ.enter) fun _ _ => True) :
    let inner := init.after σ.enter
    let uses := init.uses σ.enter ++ ((Expression.optionFootprint condition inner).captured ++
      ((Expression.optionFootprint next inner).captured ++ ps))
    Emits (runFor init condition next body) c
      (init.code σ.enter r ++ (loop (condition.map (·.code inner r)) (next.map (·.code inner r)) a ++
        σ.leave inner uses)) (σ.remaining uses) σ fun _ _ => True := by
  intro inner uses
  have := init.reads_run
  have := reads_runCondition condition
  have := fun start => reads_runIncrement start next
  have hinner : r = inner.receivers := hr.trans (init.receivers_after (σ := σ.enter) hproper).symm
  have hloop : ∀ c₁ : Compiler, c₁.Ongoing inner → Emits (do
      let start ← codeSize
      let leave ← runCondition condition
      let start ← runIncrement start next
      body
      emitLoop start
      runLeave leave) c₁ (loop (condition.map (·.code inner r)) (next.map (·.code inner r)) a)
        ((Expression.optionFootprint condition inner).captured ++
          ((Expression.optionFootprint next inner).captured ++ ps)) inner fun _ _ => True :=
    fun c₁ hc₁ => .known (r := c₁.draft.chunk.size) rfl (loop_emits hinner hc₁ condition next hbody)
  have hgroup : runFor init condition next body = (do
      let _ ← (do
        beginScope
        advance
        init.run
        (do
          let start ← codeSize
          let leave ← runCondition condition
          let start ← runIncrement start next
          body
          emitLoop start
          runLeave leave))
      endScope) := by
    simp only [runFor, bind_assoc]
  rw [hgroup]
  refine .congr (.scoped hs.here (init.encloses_after (Setting.encloses_enter σ)) hc
    (.bind (beginScope_emits hc) fun _ _ hc₁ _ _ => .bind (advance_emits hc₁) fun _ _ hc₂ _ _ =>
      .bind (init.run_emits (σ := σ.enter) hr hc₂ hproper) fun _ _ hc₃ _ _ => hloop _ hc₃)) ?_ ?_
  · simp [uses, inner]
  · simp [uses, inner]

/-! ## Returns -/

theorem emitReturn_emits (hc : c.Ongoing σ) :
    Emits emitReturn c (returning σ.here.kind) [] σ fun _ _ => True := by
  have hkind : c.draft.kind = σ.here.kind := congrArg FunctionScope.kind hc.here
  unfold emitReturn returning
  refine .known (r := c) rfl ?_
  by_cases hinit : σ.here.kind = .initializer
  · rw [if_pos (hkind.trans hinit), if_pos hinit]
    exact .bind (emitWith_emits hc (.get (v := .own 0 "this") (i := 0) rfl)) fun _ _ hc₁ _ _ =>
      emit_emits hc₁ .ret
  · rw [if_neg (hkind ▸ hinit), if_neg hinit]
    exact .bind (emit_emits hc .pushNil) fun _ _ hc₁ _ _ => emit_emits hc₁ .ret

theorem runReturn_emits (hr : r = σ.receivers) (hc : c.Ongoing σ) (value : Option Expression) :
    Emits (runReturn value) c ((Statement.ret value).code σ r) (Expression.optionFootprint value σ).captured σ
      fun _ _ => True := by
  have hresult : ∀ c₁ : Compiler, c₁.Ongoing σ → Emits (runResult value) c₁ ((Statement.ret value).code σ r)
      (Expression.optionFootprint value σ).captured σ fun _ _ => True := by
    intro c₁ hc₁
    cases value with
    | none => exact .bind (advance_emits hc₁) fun _ _ hc₂ _ _ => emitReturn_emits hc₂
    | some e =>
      refine .known (r := c₁) rfl (.congr (.bind (errorIf_emits hc₁ _ _) fun _ _ hc₂ _ _ =>
        .bind (e.run_emits hr hc₂) fun _ _ hc₃ _ _ => .bind (advance_emits hc₃)
        fun _ _ hc₄ _ _ => emit_emits hc₄ .ret) ?_ ?_)
      · simp [Statement.code]
      · simp [Expression.optionFootprint]
  exact .known (r := c) rfl (.bind (errorIf_emits hc _ _) fun _ c₁ hc₁ _ _ => hresult c₁ hc₁)

/-! ## Blocks and functions -/

theorem runBlock_emits [Reads body k] (hs : σ.Settled) (hc : c.Ongoing σ) (hinner : σ.Encloses τ)
    (hbody : ∀ c₁ : Compiler, c₁.Ongoing σ.enter → Emits body c₁ a ps τ fun _ _ => True) :
    Emits (runBlock body) c (a ++ σ.leave τ ps) (σ.remaining ps) σ fun _ _ => True := by
  have hgroup : runBlock body = (do
      let _ ← (do beginScope; body; advance)
      endScope) := by
    simp only [runBlock, bind_assoc]
  rw [hgroup]
  refine .congr (.scoped hs.here hinner hc (.bind (beginScope_emits hc) fun _ _ hc₁ _ _ =>
    .bind (hbody _ hc₁) fun _ _ hc₂ _ _ => advance_emits hc₂)) ?_ ?_
  · simp
  · simp

theorem runFunction_emits [Reads body k] (hc : c.Ongoing σ) (name : String)
    (hbody : ∀ c₁ : Compiler, c₁.Ongoing (σ.define name) →
      Emits body c₁ a ps (σ.define name) fun _ _ => True) :
    Emits (runFunction name body) c (a ++ σ.defining name) ps (σ.define name) fun _ _ => True := by
  refine .congr (.bind (runName_emits hc name) fun global _ hc₁ _ hglobal =>
    .bind (markInitialized_emits none hc₁) fun _ _ hc₂ h₂ _ => .bind (hbody _ hc₂) fun _ _ hc₃ h₃ _ =>
    defineVariable_emits (some σ.here.depth) hc₃ fun h => (hglobal h).mono (h₂.le.trans h₃.le)) ?_ ?_
  · simp
  · simp

theorem runMethod_emits [Reads body k] (hc : c.Ongoing σ) (name : String)
    (hbody : ∀ c₁ : Compiler, c₁.Ongoing σ → Emits body c₁ a ps σ fun _ _ => True) :
    Emits (runMethod name body) c (a ++ [.named .method name]) ps σ fun _ _ => True := by
  refine .congr (.bind (advance_emits hc) fun _ _ hc₁ _ _ => .bind (nameConstant_emits hc₁ name)
    fun _ _ hc₂ _ hname => .bind (hbody _ hc₂) fun _ _ hc₃ h₃ _ =>
    emitWith_emits hc₃ (.named .method (hname.mono h₃.le))) ?_ ?_
  · simp
  · simp

end Parts

end LoxMachine
