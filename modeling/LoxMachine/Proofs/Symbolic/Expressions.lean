import LoxMachine.Proofs.Grammar.Expressions
import LoxMachine.Proofs.Symbolic.Emitting

/-!
# The code of expressions

* `Expression.run_emits`: compiling along an expression writes its code.
* `expression_post_order`: the parser of expressions, started on the tokens that an expression is read from,
  reads these tokens and no more, and writes the code of the expression.
-/

namespace LoxMachine

open Compile Symbolic

set_option synthInstance.maxSize 4096

variable {σ : Setting} {r : Receivers}

/-- What `this` and `super` are found to be, if names are looked up for them. -/
def Setting.receivers (σ : Setting) : Receivers := ⟨σ.variable "this", σ.variable "super"⟩

namespace Expression

theorem checkSuper_emits {c : Compiler} (hc : c.Ongoing σ) :
    Emits checkSuper c [] [] σ fun _ _ => True := by
  unfold checkSuper
  refine .known (r := c) rfl ?_
  rcases c.classes with _ | ⟨scope, classes⟩
  · exact .absurd (errorAt_ne (calm_of_stands hc.toStands) _ _)
  · rcases hsuper : scope.hasSuperclass
    · simp only [hsuper]
      exact .absurd (errorAt_ne (calm_of_stands hc.toStands) _ _)
    · simp only [hsuper]
      exact .pure hc trivial

theorem argumentCount_eq {arguments : List Expression} (h : arguments.length ≤ maxArity) :
    argumentCount arguments = UInt8.ofNat arguments.length := by
  rw [argumentCount, Nat.min_eq_left h]

/-- The receiver of a method. -/
theorem readThis_emits (hr : r = σ.receivers) {c : Compiler} (hc : c.Ongoing σ) :
    Emits (readVariable "this") c [.get r.this] (σ.access "this").captured σ fun _ _ => True :=
  hr ▸ readVariable_emits hc "this"

/-- The superclass of a class. -/
theorem readSuper_emits (hr : r = σ.receivers) {c : Compiler} (hc : c.Ongoing σ) :
    Emits (readVariable "super") c [.get r.super] (σ.access "super").captured σ fun _ _ => True :=
  hr ▸ readVariable_emits hc "super"

mutual

/-- **Compiling along an expression writes its code.** -/
theorem run_emits (hr : r = σ.receivers) : ∀ (e : Expression) {c : Compiler}, c.Ongoing σ →
    Emits e.run c (e.code σ r) (e.footprint σ).captured σ fun _ _ => True
  | nil, c, hc | bool _, c, hc => by
    unfold run
    exact .bind (advance_emits hc) fun _ _ hc₁ _ _ => emit_emits hc₁ _
  | number literal, c, hc => by
    unfold run
    cases hn : Number.ofLiteral? literal with
    | none =>
      refine .congr (.bind (b := []) (advance_emits hc) fun _ c₁ hc₁ _ _ => .absurd ?_) ?_ rfl
      · exact errorAt_ne (calm_of_stands hc₁.toStands) _ _
      · simp [code, hn]
    | some n =>
      refine .congr (.bind (advance_emits hc) fun _ _ hc₁ _ _ => emitNumber_emits hc₁ n) ?_ rfl
      simp [code, hn]
  | string literal, c, hc => by
    unfold run
    exact .bind (advance_emits hc) fun _ _ hc₁ _ _ => emitString_emits hc₁ _
  | read name, c, hc => by
    unfold run
    exact .bind (advance_emits hc) fun _ _ hc₁ _ _ => readVariable_emits hc₁ name
  | this, c, hc => by
    have hrest : ∀ c₁ : Compiler, c₁.Ongoing σ → Emits (do
        if (← get).classes.isEmpty then error .thisOutsideClass else readVariable "this") c₁
          [.get r.this] (σ.access "this").captured σ fun _ _ => True := by
      intro c₁ hc₁
      refine .known (r := c₁) rfl ?_
      cases hempty : c₁.classes with
      | nil => exact .absurd (errorAt_ne (calm_of_stands hc₁.toStands) _ _)
      | cons scope classes => exact readThis_emits hr hc₁
    unfold run
    exact .bind (advance_emits hc) fun _ c₁ hc₁ _ _ => hrest c₁ hc₁
  | grouping e, c, hc => by
    unfold run
    exact .congr (.bind (advance_emits hc) fun _ _ hc₁ _ _ => .bind (run_emits hr e hc₁)
      fun _ _ hc₂ _ _ => advance_emits hc₂) (by simp [code]) (by simp [footprint])
  | superProperty name, c, hc => by
    unfold run
    exact .congr (.bind (advance_emits hc) fun _ _ hc₁ _ _ => .bind (checkSuper_emits hc₁)
      fun _ _ hc₂ _ _ => .bind (advance_emits hc₂) fun _ _ hc₃ _ _ => .bind (advance_emits hc₃)
      fun _ _ hc₄ _ _ => .bind (nameConstant_emits hc₄ name) fun _ _ hc₅ _ hname =>
      .bind (readThis_emits hr hc₅) fun _ _ hc₆ h₆ _ =>
      .bind (readSuper_emits hr hc₆) fun _ _ hc₇ h₇ _ =>
      emitWith_emits hc₇ (.named .getSuper (hname.mono (h₆.le.trans h₇.le)))) (by simp [code])
      (by simp [footprint])
  | superInvoke name arguments, c, hc => by
    have := reads_runArguments arguments
    unfold run
    refine .congr (.bind (advance_emits hc) fun _ _ hc₁ _ _ => .bind (checkSuper_emits hc₁)
      fun _ _ hc₂ _ _ => .bind (advance_emits hc₂) fun _ _ hc₃ _ _ => .bind (advance_emits hc₃)
      fun _ _ hc₄ _ _ => .bind (nameConstant_emits hc₄ name) fun _ _ hc₅ _ hname =>
      .bind (readThis_emits hr hc₅) fun _ _ hc₆ h₆ _ =>
      .bind (advance_emits hc₆) fun _ _ hc₇ h₇ _ => .bind (runArguments_emits hr arguments hc₇)
      fun _ _ hc₈ h₈ hfew => .bind (advance_emits hc₈) fun _ _ hc₉ h₉ _ =>
      .bind (readSuper_emits hr hc₉) fun _ _ hc₁₀ h₁₀ _ =>
      argumentCount_eq hfew ▸ emitWith_byte_emits hc₁₀ (.invoke .superInvoke (hname.mono
        (h₆.le.trans (h₇.le.trans (h₈.le.trans (h₉.le.trans h₁₀.le))))) hfew)) (by simp [code])
      (by simp [footprint])
  | call callee arguments, c, hc => by
    have := reads_runArguments arguments
    unfold run
    exact .congr (.bind (run_emits hr callee hc) fun _ _ hc₁ _ _ => .bind (advance_emits hc₁)
      fun _ _ hc₂ _ _ => .bind (runArguments_emits hr arguments hc₂) fun _ _ hc₃ _ hfew =>
      .bind (advance_emits hc₃) fun _ _ hc₄ _ _ =>
      argumentCount_eq hfew ▸ emitWith_emits hc₄ (.call hfew)) (by simp [code]) (by simp [footprint])
  | property target name, c, hc => by
    unfold run
    exact .congr (.bind (run_emits hr target hc) fun _ _ hc₁ _ _ => .bind (advance_emits hc₁)
      fun _ _ hc₂ _ _ => .bind (advance_emits hc₂) fun _ _ hc₃ _ _ => .bind (nameConstant_emits hc₃ name)
      fun _ _ hc₄ _ hname => emitWith_emits hc₄ (.named .getProperty hname)) (by simp [code])
      (by simp [footprint])
  | invoke target name arguments, c, hc => by
    have := reads_runArguments arguments
    unfold run
    exact .congr (.bind (run_emits hr target hc) fun _ _ hc₁ _ _ => .bind (advance_emits hc₁)
      fun _ _ hc₂ _ _ => .bind (advance_emits hc₂) fun _ _ hc₃ _ _ => .bind (nameConstant_emits hc₃ name)
      fun _ _ hc₄ _ hname => .bind (advance_emits hc₄) fun _ _ hc₅ h₅ _ =>
      .bind (runArguments_emits hr arguments hc₅) fun _ _ hc₆ h₆ hfew =>
      .bind (advance_emits hc₆) fun _ _ hc₇ h₇ _ => argumentCount_eq hfew ▸ emitWith_byte_emits hc₇
        (.invoke .invoke (hname.mono (h₅.le.trans (h₆.le.trans h₇.le))) hfew)) (by simp [code])
      (by simp [footprint])
  | unary operator e, c, hc => by
    unfold run
    exact .congr (.bind (advance_emits hc) fun _ _ hc₁ _ _ => .bind (run_emits hr e hc₁)
      fun _ _ hc₂ _ _ => emit_emits hc₂ _) (by simp [code]) (by simp [footprint])
  | binary operator left right, c, hc => by
    unfold run
    exact .congr (.bind (run_emits hr left hc) fun _ _ hc₁ _ _ => .bind (advance_emits hc₁)
      fun _ _ hc₂ _ _ => .bind (run_emits hr right hc₂) fun _ _ hc₃ _ _ =>
      ops_emits hc₃ operator.opcodes) (by simp [code]) (by simp [footprint])
  | and left right, c, hc => by
    have hgroup : (left.and right).run = (do
        left.run
        advance
        let offset ← emitJump .jumpIfFalse
        let r ← (do emit .pop; right.run)
        patchJump offset
        return r) := by
      simp only [run, bind_assoc, bind_pure_unit]
    rw [hgroup]
    exact .congr (.bind (run_emits hr left hc) fun _ _ hc₁ _ _ => .bind (advance_emits hc₁)
      fun _ _ hc₂ _ _ => across_emits .jumpIfFalse hc₂ fun _ hc₃ _ => .bind (emit_emits hc₃ .pop)
      fun _ _ hc₄ _ _ => run_emits hr right hc₄) (by simp [code]) (by simp [footprint])
  | or left right, c, hc => by
    have hbranch : ∀ c₂ : Compiler, c₂.Ongoing σ → Emits (do
        let onFalse ← emitJump .jumpIfFalse
        let atEnd ← emitJump .jump
        patchJump onFalse
        emit .pop
        right.run
        patchJump atEnd) c₂ (branch [] (.op .pop :: right.code σ r)) (right.footprint σ).captured σ
          fun _ _ => True := by
      intro c₂ hc₂
      exact branch_emits (x := pure ()) (y := do emit .pop; right.run) hc₂
        (fun _ hc₃ => .pure hc₃ trivial) fun _ hc₃ =>
        .bind (emit_emits hc₃ .pop) fun _ _ hc₄ _ _ => run_emits hr right hc₄
    unfold run
    exact .congr (.bind (run_emits hr left hc) fun _ _ hc₁ _ _ => .bind (advance_emits hc₁)
      fun _ c₂ hc₂ _ _ => hbranch c₂ hc₂) (by simp [code]) (by simp [footprint])
  | assign name value, c, hc => by
    unfold run
    exact .congr (.bind (advance_emits hc) fun _ _ hc₁ _ _ => .bind (access_emits hc₁ name)
      fun _ _ hc₂ _ hname => .bind (advance_emits hc₂) fun _ _ hc₃ h₃ _ =>
      .bind (run_emits hr value hc₃) fun _ _ hc₄ h₄ _ =>
      set_emits hc₄ (hname.mono (h₃.le.trans h₄.le))) (by simp [code]) (by simp [footprint])
  | setProperty target name value, c, hc => by
    unfold run
    exact .congr (.bind (run_emits hr target hc) fun _ _ hc₁ _ _ => .bind (advance_emits hc₁)
      fun _ _ hc₂ _ _ => .bind (advance_emits hc₂) fun _ _ hc₃ _ _ => .bind (nameConstant_emits hc₃ name)
      fun _ _ hc₄ _ hname => .bind (advance_emits hc₄) fun _ _ hc₅ h₅ _ =>
      .bind (run_emits hr value hc₅) fun _ _ hc₆ h₆ _ =>
      emitWith_emits hc₆ (.named .setProperty (hname.mono (h₅.le.trans h₆.le)))) (by simp [code])
      (by simp [footprint])

theorem runArguments_emits (hr : r = σ.receivers) : ∀ (arguments : List Expression) {c : Compiler},
    c.Ongoing σ → Emits (runArguments arguments) c (listCode arguments σ r)
      (listFootprint arguments σ).captured σ fun _ _ => arguments.length ≤ maxArity
  | [], c, hc => .pure hc (Nat.zero_le _)
  | e :: more, c, hc => by
    have := reads_runMore 1 more
    unfold runArguments
    refine .congr (.bind (run_emits hr e hc) fun _ _ hc₁ _ _ =>
      (runMore_emits hr 1 (by decide) more hc₁).mono fun _ _ h => ?_) rfl rfl
    rw [List.length_cons]
    omega

theorem runMore_emits (hr : r = σ.receivers) (count : Nat) (hcount : count ≤ maxArity) :
    ∀ (arguments : List Expression) {c : Compiler}, c.Ongoing σ →
    Emits (runMore count arguments) c (listCode arguments σ r) (listFootprint arguments σ).captured σ
      fun _ _ => count + arguments.length ≤ maxArity
  | [], c, hc => .pure hc hcount
  | e :: more, c, hc => by
    have := reads_runMore (count + 1) more
    unfold runMore
    refine .congr (.bind (advance_emits hc) fun _ _ hc₁ _ _ => .bind (run_emits hr e hc₁)
      fun _ _ hc₂ _ _ => .bind (errorIf_emits hc₂ _ _) fun _ _ hc₃ _ hfew =>
      (runMore_emits hr (count + 1) (Nat.lt_of_le_of_ne hcount hfew) more hc₃).mono fun _ _ h => ?_)
      (by simp [listCode]) (by simp [listFootprint])
    rw [List.length_cons]
    omega

end

end Expression

namespace Compile

/-- **The parser of expressions follows the grammar.** Started on the tokens that an expression is read
from, with a token after them that continues no expression, it reads these tokens and no more. It meets no
error if and only if the expression keeps the static rules and the limits, and then it has written the code
of the expression: the operands from left to right, each before its operation. -/
theorem expression_post_order {c : Compiler} {e : Expression} {s : Symbol} {more : List Symbol} {n : Nat}
    (hc : c.Ongoing σ) (hσ : σ.Reserved) (he : e.Grammatical) (hproper : ∀ t ∈ e.symbols, t.Proper)
    (hexpects : c.Expects (e.symbols ++ s :: more)) (hs : Precedence.ofToken s.kind = .none)
    (hne : s.kind ≠ .equal) (hn : e.symbols.length ≤ n) :
    (expression n c).2.Expects (s :: more) ∧
      ((expression n c).2.errors = #[] ↔ e.Legal σ ∧ c.Room (e.footprint σ)) ∧
      ((expression n c).2.errors = #[] → (expression n c).2.Ongoing σ ∧
        c.Wrote (e.code σ σ.receivers) (e.footprint σ).captured (expression n c).2) := by
  have hrun : expression n c = e.run c := Follows.whole (parsePrecedence_run n) he hn hexpects hs hne
  rw [hrun]
  refine ⟨e.reads_run.expects hexpects (List.cons_ne_nil s more),
    (e.run_costs hσ hproper hc.toStands).errors_iff, fun herr => ?_⟩
  obtain ⟨hc', hw, -⟩ := e.run_emits rfl hc herr
  exact ⟨hc', hw⟩

/-- `a.f(b) - c - d or x.y = !z`, read as the grammar groups it. -/
def grouped : Expression :=
  .or (.binary .subtract (.binary .subtract (.invoke (.read "a") "f" [.read "b"]) (.read "c")) (.read "d"))
    (.grouping (.setProperty (.read "x") "y" (.unary .not (.read "z"))))

/-- A script of which this expression and a semicolon are left to compile. -/
def beforeGrouped : Compiler :=
  { Compiler.start "" {} (Thunk.pure []) with
    current := ⟨.identifier, "a", 1⟩
    rest := [⟨.dot, ".", 1⟩, ⟨.identifier, "f", 1⟩, ⟨.leftParen, "(", 1⟩, ⟨.identifier, "b", 1⟩,
      ⟨.rightParen, ")", 1⟩, ⟨.minus, "-", 1⟩, ⟨.identifier, "c", 1⟩, ⟨.minus, "-", 1⟩,
      ⟨.identifier, "d", 1⟩, ⟨.kwOr, "or", 1⟩, ⟨.leftParen, "(", 1⟩, ⟨.identifier, "x", 1⟩, ⟨.dot, ".", 1⟩,
      ⟨.identifier, "y", 1⟩, ⟨.equal, "=", 1⟩, ⟨.bang, "!", 1⟩, ⟨.identifier, "z", 1⟩,
      ⟨.rightParen, ")", 1⟩, ⟨.semicolon, ";", 1⟩, ⟨.eof, "", 1⟩] }

theorem expression_post_order_grouped :
    (expression 100 beforeGrouped).2.Expects [TokenKind.semicolon.symbol, TokenKind.eof.symbol] ∧
      beforeGrouped.Wrote
        ([.get (.global "a"), .get (.global "b"), .invoke .invoke "f" 1, .get (.global "c"), .op .subtract,
          .get (.global "d"), .op .subtract, .jump .jumpIfFalse 3, .jump .jump 8, .op .pop,
          .get (.global "x"), .get (.global "z"), .op .not, .named .setProperty "y"])
        [] (expression 100 beforeGrouped).2 := by
  have hongoing : beforeGrouped.Ongoing .start :=
    ⟨⟨rfl, rfl, by simp [beforeGrouped], rfl, rfl, rfl, ⟨nofun, List.nodup_nil, trivial⟩,
      List.forall_mem_cons.2 ⟨Draft.bounded_start _ _, nofun⟩⟩,
      Heap.tidy_of_empty rfl⟩
  have hexpects : beforeGrouped.Expects
      (grouped.symbols ++ TokenKind.semicolon.symbol :: [TokenKind.eof.symbol]) := by
    refine ⟨?_, rfl⟩
    change Stream (beforeGrouped.current :: beforeGrouped.rest)
    iterate 20 refine .cons nofun ⟨nofun, nofun⟩ ?_
    exact .eof rfl
  have hroom : beforeGrouped.Room (grouped.footprint .start) := ⟨by decide, by decide, trivial⟩
  have hsettled : Setting.start.Settled := ⟨Setting.settled_start, nofun⟩
  have hlegal : grouped.Legal .start :=
    ⟨⟨⟨⟨hsettled.usable _, by decide, hsettled.usable _, trivial⟩, hsettled.usable _⟩, hsettled.usable _⟩,
      ⟨hsettled.usable _, hsettled.usable _⟩, Nat.le_of_ble_eq_true rfl⟩
  have hgrammatical : grouped.Grammatical := by
    simp only [grouped, Expression.Grammatical, Expression.ListGrammatical]
    decide
  have hproper : ∀ t ∈ grouped.symbols, t.Proper := by
    iterate 19 refine List.forall_mem_cons.2 ⟨⟨by decide, by decide, by decide⟩, ?_⟩
    exact nofun
  obtain ⟨hrest, hlimits, hwrote⟩ := expression_post_order (n := 100) hongoing hsettled.reserved
    hgrammatical hproper hexpects rfl (by decide) (by decide)
  exact ⟨hrest, (hwrote (hlimits.2 ⟨hlegal, hroom⟩)).2⟩

end Compile

end LoxMachine
