import Mathlib.Data.List.TakeWhile
import LoxMachine.Proofs.Compile.Passing
import LoxMachine.Proofs.Scan.Spelling

/-!
# Every compilation passes its checks

* Each rule passes its checks, if the parsers it uses do: the `_passing` lemmas follow the rules.
* `parsePrecedence_parses`, `statement_parses` and `declaration_parses`: with enough steps for the tokens left,
  the parsers pass their checks and take a token.
* `compile_never_fails`: the compiler with all its checks never fails, and does what the compiler does.
-/

namespace LoxMachine

namespace Checked

open Compile (Blind Along Takes Regular)

variable {b : Bounds} {c : Compiler} {k : Nat}

set_option synthInstance.maxSize 16384

/-! ## Expressions -/

theorem this_passing : Passing b this Compile.this :=
  .get fun _ => .ite (.plain _) (.step fun _ => readVariable_passing _)

section Rules

variable {operand' : Precedence → Checked Unit} {operand : Precedence → Compile Unit} {fuel : Nat}
  [∀ p, Blind (operand p)] [∀ p, Along Compiler.Feeds (operand p)] [∀ p, Along Compiler.Level (operand p)]
  (hoperand : ∀ p, p ≠ .none → Parses b.left (operand' p) (operand p))

include hoperand

theorem grouping_passing : Passing b (grouping operand') (Compile.grouping operand) :=
  .bind ((hoperand .assignment nofun).passing le_rfl) fun _ => .plain _

theorem unary_passing (kind : TokenKind) : Passing b (unary operand' kind) (Compile.unary operand kind) :=
  .bind ((hoperand .unary nofun).passing le_rfl) fun _ => .plain _

theorem binary_passing (kind : TokenKind) : Passing b (binary operand' kind) (Compile.binary operand kind) := by
  have hnext : (Precedence.ofToken kind).next ≠ .none := by cases Precedence.ofToken kind <;> exact nofun
  exact .bind ((hoperand _ hnext).passing le_rfl) fun _ => .plain _

theorem name_passing (canAssign : Bool) :
    Passing b (name operand' canAssign) (Compile.name operand canAssign) :=
  .step fun _ => .bind (access_passing _) fun _ => .step fun _ => .ite
    (.step fun _ => .bind ((hoperand .assignment nofun).passing le_rfl) fun _ => .plain _) (.plain _)

/-- Every round but the last one takes a comma. -/
theorem argumentsFrom_passing (n count : Nat) (hn : b.left ≤ n) :
    Passing b (argumentsFrom operand' n count) (Compile.argumentsFrom operand n count) := by
  induction n generalizing b count with
  | zero => exact fun c _ hb => absurd hb.left (by omega)
  | succ n ih =>
    unfold argumentsFrom Compile.argumentsFrom
    refine .count fun m hm => .bind ((hoperand .assignment nofun).passing hm) fun _ =>
      .ite (.step fun _ => ?_) ?_
    all_goals
      refine .accept .comma nofun (.fewer le_rfl (ih ?_ (count + 1) ?_)) (.pure (count + 1))
      · exact fun p hp => (hoperand p hp).mono ((Nat.sub_le _ _).trans hm)
      · exact Nat.le_of_lt_succ (hm.trans_le hn)

theorem arguments_passing (hfuel : b.left ≤ fuel) :
    Passing b (arguments operand' fuel) (Compile.arguments operand fuel) := by
  unfold arguments Compile.arguments
  refine .step fun closed => ?_
  dsimp only
  split
  · exact .bind (.pure 0) fun _ => .step fun _ => .pure _
  · exact .bind (argumentsFrom_passing hoperand fuel 0 hfuel) fun _ => .step fun _ => .pure _

theorem super_passing (hfuel : b.left ≤ fuel) :
    Passing b (super operand' fuel) (Compile.super operand fuel) := by
  have htaken : b.taken.left ≤ b.left := Nat.sub_le _ _
  have harguments : Passing b.taken (arguments operand' fuel) (Compile.arguments operand fuel) :=
    arguments_passing (fun p hp => (hoperand p hp).mono htaken) (htaken.trans hfuel)
  unfold super Compile.super
  refine .get fun c => ?_
  rcases c.classes with _ | ⟨scope, _⟩ <;> [refine .step fun _ => ?_; refine .ite (.step fun _ => ?_) ?_]
  all_goals
    refine .step fun _ => .step fun _ => .step fun _ => .step fun _ => .bind (readVariable_passing "this")
      fun _ => .accept .leftParen nofun ?_ (.bind (readVariable_passing "super") fun _ => .plain _)
    exact .bind harguments fun _ => .bind (readVariable_passing "super") fun _ => .step fun _ => .plain _

theorem call_passing (hfuel : b.left ≤ fuel) : Passing b (call operand' fuel) (Compile.call operand fuel) :=
  .bind (arguments_passing hoperand hfuel) fun _ => .plain _

theorem property_passing (hfuel : b.left ≤ fuel) (canAssign : Bool) :
    Passing b (property operand' fuel canAssign) (Compile.property operand fuel canAssign) := by
  have htaken : b.taken.left ≤ b.left := Nat.sub_le _ _
  have harguments : Passing b.taken (arguments operand' fuel) (Compile.arguments operand fuel) :=
    arguments_passing (fun p hp => (hoperand p hp).mono htaken) (htaken.trans hfuel)
  unfold property Compile.property
  refine .step fun _ => .step fun _ => .step fun name => .step fun assigns => .ite ?_ ?_
  · exact .step fun _ => .bind ((hoperand .assignment nofun).passing le_rfl) fun _ => .plain _
  · exact .accept .leftParen nofun (.bind harguments fun _ => .step fun _ => .plain _) (.plain _)

theorem conjunction_passing : Passing b (conjunction operand') (Compile.conjunction operand) :=
  .jump fun _ => .step fun _ => .bind ((hoperand .and nofun).passing le_rfl) fun _ =>
    patchJump_passing (le_max_right _ _)

theorem disjunction_passing : Passing b (disjunction operand') (Compile.disjunction operand) :=
  .jump fun _ => .jump fun _ => .bind (patchJump_passing ((le_max_right _ _).trans (le_max_left _ _))) fun _ =>
    .step fun _ => .bind ((hoperand .or nofun).passing le_rfl) fun _ => patchJump_passing (le_max_right _ _)

theorem continueExpression_passing (hfuel : b.left ≤ fuel) (kind : TokenKind) (canAssign : Bool) :
    Passing b (continueExpression operand' fuel kind canAssign)
      (Compile.continueExpression operand fuel kind canAssign) := by
  unfold continueExpression Compile.continueExpression
  cases kind
  case leftParen => exact call_passing hoperand hfuel
  case dot => exact property_passing hoperand hfuel canAssign
  case kwAnd => exact conjunction_passing hoperand
  case kwOr => exact disjunction_passing hoperand
  all_goals exact binary_passing hoperand _

/-- The text of a string is that of the token read last. -/
theorem startExpression_eq (fuel : Nat) (hfuel : b.left ≤ fuel) (canAssign : Bool) (hc : c.Fine) (hb : b.Holds c) :
    startExpression operand' fuel c.previous.kind canAssign c =
      some (Compile.startExpression operand fuel c.previous.kind canAssign c) := by
  have hrule : ∀ {x' : Checked Unit} {x : Compile Unit}, x' c = some (x c) →
      (do x'; return true : Checked Bool) c = some ((do x; return true : Compile Bool) c) :=
    fun h => bind_eq h rfl
  generalize hkind : c.previous.kind = kind
  unfold startExpression Compile.startExpression
  cases kind
  case leftParen => exact hrule (grouping_passing hoperand c hc hb)
  case minus => exact hrule (unary_passing hoperand _ c hc hb)
  case bang => exact hrule (unary_passing hoperand _ c hc hb)
  case string =>
    refine hrule ?_
    change ((guard _ : Checked Unit) >>= fun _ => _) c = _
    rw [guard_eq (hc.fed.previous hkind)]
    rfl
  case identifier => exact hrule (name_passing hoperand canAssign c hc hb)
  case kwThis => exact hrule (this_passing c hc hb)
  case kwSuper => exact hrule (super_passing hoperand hfuel c hc hb)
  all_goals rfl

end Rules

/-- An operator that binds tightly enough is not the end. -/
theorem left_ne_zero_of_continues {p : Precedence} (hp : p ≠ .none) (hc : c.Fine)
    (hle : p ≤ Precedence.ofToken c.current.kind) : c.left ≠ 0 := fun hzero => by
  rw [hc.fed.left_eq_zero_iff.1 hzero] at hle
  cases p with
  | none => exact hp rfl
  | _ => exact absurd hle (by decide)

/-- **Expressions**: every operand takes a token, so there are steps enough. -/
theorem parsePrecedence_parses (n : Nat) (p : Precedence) (hp : p ≠ .none) :
    Parses n (parsePrecedence n p) (Compile.parsePrecedence n p) := by
  induction n generalizing p with
  | zero => exact ⟨fun _ _ h => absurd h (Nat.not_lt_zero _), fun _ h => absurd h (Nat.not_lt_zero _)⟩
  | succ n ih =>
    refine .of_taking (fun c hc hb => ?_) fun m _ => ?_
    · have hc₁ := (Regular.onward (x := Compile.advance) hc).fine
      have hprevious : (Compile.advance c).2.previous = c.current := Compiler.previous_pull c.rest _
      have htakes := (Compile.takes_advance c ⟨hc.fed, le_rfl⟩).left
      have heof := hc.fed.left_eq_zero_iff
      unfold precedenceRule Compile.parsePrecedence
      refine bind_eq rfl ?_
      generalize (Compile.advance c).2 = c₁ at hc₁ hprevious htakes
      dsimp only
      refine bind_eq rfl ?_
      change (startExpression (parsePrecedence n) n c₁.previous.kind (p ≤ Precedence.assignment) >>= _) c₁ =
        some ((Compile.startExpression (Compile.parsePrecedence n) n c₁.previous.kind _ >>= _) c₁)
      by_cases hzero : c.left = 0
      · rw [hprevious, heof.1 hzero]
        rfl
      · have hb₁ : (⟨n, 0, 0, false⟩ : Bounds).Holds c₁ :=
          Bounds.holds_of_left ((htakes hzero).trans_le (Nat.le_of_lt_succ hb.left))
        have hcontinues : Blind (do
            return decide (p ≤ Precedence.ofToken (← get).current.kind) : Compile Bool) :=
          .reads (fun c => inferInstance) fun h => by rw [h.current]
        have hstep : Blind (do
            Compile.advance
            Compile.continueExpression (Compile.parsePrecedence n) n (← get).previous.kind
              (p ≤ Precedence.assignment) : Compile Unit) :=
          .bind inferInstance fun _ => .reads (fun c => inferInstance) fun h => by rw [h.previous]
        have hstart := startExpression_eq (b := ⟨n, 0, 0, false⟩) ih n le_rfl (p ≤ Precedence.assignment)
          hc₁ hb₁
        refine Passing.bind_at (b := ⟨n, 0, 0, false⟩) hstart (fun started =>
          .ite (.bind ?_ fun _ => .step fun _ => .ite (.plain _) (.pure ())) (.plain _)) hc₁ hb₁
        exact loop_passing (fun c hc htest => left_ne_zero_of_continues hp hc (of_decide_eq_true htest))
          (.step fun _ => .get fun _ => continueExpression_passing ih le_rfl _ _)
          (fun _ _ => .bind Compile.takes_advance) le_rfl
    · unfold Compile.parsePrecedence
      dsimp only
      exact .bind Compile.takes_advance

/-! ## Statements and declarations -/

section Rules

variable {expr' stmt' decl' : Checked Unit} {expr stmt decl : Compile Unit} {fuel : Nat}
  [Blind expr] [Along Compiler.Feeds expr] [Along Compiler.Level expr]
  [Blind stmt] [Along Compiler.Feeds stmt] [Along Compiler.Level stmt]
  [Blind decl] [Along Compiler.Feeds decl] [Along Compiler.Level decl]

/-- Where declarations up to a brace have ended, there is the brace or the end. -/
theorem left_ne_zero_of_inside (hc : c.Fine)
    (h : ((do return !(← Compile.check .rightBrace) && !(← Compile.check .eof) : Compile Bool) c).1 = true) :
    c.left ≠ 0 := fun hzero => by
  change (!decide (c.current.kind = .rightBrace) && !decide (c.current.kind = .eof)) = true at h
  simp [hc.fed.left_eq_zero_iff.1 hzero] at h

theorem block_parses (hdecl : Parses k decl' decl) (hfuel : k ≤ fuel) :
    Parses k (block decl' fuel) (Compile.block decl fuel) :=
  .of_taking (.bind (loop_passing (fun _ hc h => left_ne_zero_of_inside hc h) (hdecl.passing le_rfl) hdecl.takes
    hfuel) fun _ => .plain _) fun n hn => Compile.takes_block (hdecl.takes n hn) (hn.trans_le hfuel)

theorem printStatement_passing (hexpr : Parses b.left expr' expr) :
    Passing b (printStatement expr') (Compile.printStatement expr) :=
  .bind (hexpr.passing le_rfl) fun _ => .step fun _ => .plain _

theorem expressionStatement_passing (hexpr : Parses b.left expr' expr) :
    Passing b (expressionStatement expr') (Compile.expressionStatement expr) :=
  .bind (hexpr.passing le_rfl) fun _ => .step fun _ => .plain _

theorem returnStatement_passing (hexpr : Parses b.left expr' expr) :
    Passing b (returnStatement expr') (Compile.returnStatement expr) := by
  have htaken : b.taken.left ≤ b.left := Nat.sub_le _ _
  unfold returnStatement Compile.returnStatement
  refine .get fun c => .ite (.step fun _ => ?_) ?_
  all_goals
    refine .step fun semicolon => .ite (.plain _) (.get fun c => .ite (.step fun _ => ?_) ?_)
    all_goals exact .bind (hexpr.passing le_rfl) fun _ => .step fun _ => .plain _

theorem ifStatement_passing (hexpr : Parses b.left expr' expr) (hstmt : Parses b.left stmt' stmt) :
    Passing b (ifStatement expr' stmt') (Compile.ifStatement expr stmt) := by
  unfold ifStatement Compile.ifStatement
  refine .step fun _ => .bind (hexpr.passing le_rfl) fun _ => .step fun _ => .jump fun onFalse => .step fun _ =>
    .bind (hstmt.passing le_rfl) fun _ => .jump fun atEnd =>
    .bind (patchJump_passing ((le_max_right _ _).trans (le_max_left _ _))) fun _ => .step fun _ =>
    .step fun otherwise => .ite (.bind (hstmt.passing le_rfl) fun _ => ?_) ?_
  all_goals exact patchJump_passing (le_max_right _ _)

theorem whileStatement_passing (hexpr : Parses b.left expr' expr) (hstmt : Parses b.left stmt' stmt) :
    Passing b (whileStatement expr' stmt') (Compile.whileStatement expr stmt) :=
  .codeSize fun _ => .step fun _ => .bind (hexpr.passing le_rfl) fun _ => .step fun _ =>
    .jump fun _ => .step fun _ => .bind (hstmt.passing le_rfl) fun _ =>
    .bind (emitLoop_passing ((le_max_right _ _).trans (le_max_left _ _))) fun _ =>
    .bind (patchJump_passing (le_max_right _ _)) fun _ => .plain _

theorem varDeclaration_passing (hexpr : Parses b.left expr' expr) :
    Passing b (varDeclaration expr') (Compile.varDeclaration expr) := by
  unfold varDeclaration Compile.varDeclaration
  refine .step fun global => .step fun assigned => .ite (.bind (hexpr.passing le_rfl) fun _ => ?_)
    (.step fun _ => ?_)
  all_goals exact .step fun _ => .plain _

theorem forInitializer_passing (hexpr : Parses b.left expr' expr) :
    Passing b (forInitializer expr') (Compile.forInitializer expr) :=
  .step fun _ => .ite (.pure ()) (.step fun _ => .ite (varDeclaration_passing hexpr)
    (expressionStatement_passing hexpr))

theorem forCondition_passing (hexpr : Parses k expr' expr) (hb : b.left ≤ k) :
    Passing b (forCondition expr') (Compile.forCondition expr) :=
  .step fun _ => .ite (.pure none) (.bind (hexpr.passing hb) fun _ => .step fun _ =>
    .jump fun _ => .step fun _ => .pure _)

theorem forIncrement_passing (hexpr : Parses k expr' expr) (hb : b.left ≤ k) {start : Nat}
    (h : start ≤ b.size) : Passing b (forIncrement expr' start) (Compile.forIncrement expr start) :=
  .step fun _ => .ite (.pure start) (.jump fun _ => .codeSize fun _ => .bind (hexpr.passing hb) fun _ =>
    .step fun _ => .step fun _ =>
    .bind (emitLoop_passing (h.trans ((le_max_left _ _).trans (le_max_left _ _)))) fun _ =>
    .bind (patchJump_passing ((le_max_right _ _).trans (le_max_left _ _))) fun _ => .pure _)

theorem forStatement_passing (hexpr : Parses b.left expr' expr) (hstmt : Parses b.left stmt' stmt) :
    Passing b (forStatement expr' stmt') (Compile.forStatement expr stmt) := by
  unfold forStatement Compile.forStatement
  refine .scope (.step fun _ => .bind (forInitializer_passing hexpr) fun _ => .codeSize fun start =>
    .place (forCondition_passing hexpr le_rfl) (Compile.forCondition_places expr 0) (Nat.zero_le _) fun leave => ?_)
  have hstart : start ≤ max (max b.size start) (leave.elim 0 (· + 2)) := (le_max_right _ _).trans (le_max_left _ _)
  refine .place (forIncrement_passing hexpr (by exact le_rfl) hstart) (Compile.forIncrement_places expr start) hstart
    fun back => .bind (hstmt.passing le_rfl) fun _ => .bind (emitLoop_passing (le_max_right _ _)) fun _ => ?_
  cases leave with
  | none => exact endScope_passing (Nat.succ_pos _)
  | some onFalse =>
    exact .bind (patchJump_passing ((le_max_right _ _).trans (le_max_left _ _))) fun _ => .step fun _ =>
      endScope_passing (Nat.succ_pos _)

theorem statementRule_passing (hexpr : Parses b.left expr' expr) (hstmt : Parses (b.left - 1) stmt' stmt)
    (hdecl : Parses (b.left - 1) decl' decl) (hfuel : b.left - 1 ≤ fuel) :
    Passing b (statementRule expr' stmt' decl' fuel) (Compile.statementRule expr stmt decl fuel) := by
  have hexpr' : Parses b.taken.left expr' expr := hexpr.mono (Nat.sub_le _ _)
  unfold statementRule Compile.statementRule
  refine .accept _ (by decide) (printStatement_passing hexpr') ?_
  refine .accept _ (by decide) (forStatement_passing hexpr' hstmt) ?_
  refine .accept _ (by decide) (ifStatement_passing hexpr' hstmt) ?_
  refine .accept _ (by decide) (returnStatement_passing hexpr') ?_
  refine .accept _ (by decide) (whileStatement_passing hexpr' hstmt) ?_
  refine .accept _ (by decide) (.scope ?_) (expressionStatement_passing hexpr)
  exact .bind ((block_parses hdecl hfuel).passing le_rfl) fun _ => endScope_passing (Nat.succ_pos _)

/-- Every round but the last one takes a comma. -/
theorem parameters_passing (n : Nat) (hn : b.left ≤ n) :
    Passing b (parameters n) (Compile.parameters n) := by
  induction n generalizing b with
  | zero => exact fun c _ hb => absurd hb.left (by omega)
  | succ n ih =>
    have hcount : Regular (Compile.modifyDraft fun d => { d with arity := d.arity + 1 }) := by
      have := Compile.blind_modifyDraft (f := fun d => { d with arity := d.arity + 1 }) fun h =>
        { h with arity := congrArg (· + 1) h.arity }
      have hfeeds : Along Compiler.Feeds (Compile.modifyDraft fun d => { d with arity := d.arity + 1 }) :=
        ⟨Compile.Smooth.count⟩
      have hlevel : Along Compiler.Level (Compile.modifyDraft fun d => { d with arity := d.arity + 1 }) :=
        ⟨Compile.Smooth.count⟩
      infer_instance
    unfold parameters Compile.parameters
    refine .count fun m hm => .step fun _ => .get fun _ => .ite (.step fun _ => ?_) ?_
    all_goals
      refine .step fun _ => .step fun _ => .accept _ (by decide) (.fewer le_rfl (ih ?_)) (.pure ())
      exact Nat.le_of_lt_succ (hm.trans_le hn)

theorem functionBody_parses (hdecl : Parses k decl' decl) (hfuel : k ≤ fuel) (kind : FunctionKind) :
    Parses k (functionBody decl' fuel kind) (Compile.functionBody decl fuel kind) := by
  refine .of_taking ?_ fun n hn => Compile.takes_functionBody (hdecl.takes n hn) (hn.trans_le hfuel) kind
  unfold Compile.functionBody
  refine .loose fun _ => .loose fun _ => .step fun _ => .step fun empty => .ite
    (.bind (parameters_passing fuel hfuel) fun _ => ?_) ?_
  all_goals exact .step fun _ => .step fun _ => .bind ((block_parses hdecl hfuel).passing le_rfl) fun _ =>
    .unchecked endFunction_passing fun _ _ => rfl

theorem funDeclaration_passing (hdecl : Parses b.left decl' decl) (hfuel : b.left ≤ fuel) :
    Passing b (funDeclaration decl' fuel) (Compile.funDeclaration decl fuel) :=
  .step fun _ => .step fun _ => .bind ((functionBody_parses hdecl hfuel _).passing le_rfl) fun _ => .plain _

theorem method_passing (hdecl : Parses b.left decl' decl) (hfuel : b.left ≤ fuel) :
    Passing b (method decl' fuel) (Compile.method decl fuel) :=
  .step fun _ => .step fun _ => .step fun _ => .bind ((functionBody_parses hdecl hfuel _).passing le_rfl) fun _ =>
    .plain _

omit [Blind expr] [Along Compiler.Feeds expr] [Along Compiler.Level expr] in
theorem superclass_passing (name : String) : Passing b (superclass name) (Compile.superclass name) := by
  unfold superclass Compile.superclass
  refine .step fun _ => .step fun _ => .bind (readVariable_passing _) fun _ => .step fun _ =>
    .ite (.step fun _ => ?_) ?_
  all_goals exact .scope (.step fun _ => .step fun _ => .bind (readVariable_passing _) fun _ => .step fun _ =>
    .plain _)

theorem classBody_passing (hdecl : Parses k decl' decl) (hfuel : k ≤ fuel) (hk : b.left ≤ k)
    (hb : b.superScope = true) (name : String) :
    Passing b (classBody decl' fuel name) (Compile.classBody decl fuel name) := by
  unfold classBody Compile.classBody
  have hmethod := method_passing (hdecl.mono hk) (hk.trans hfuel)
  refine .bind (readVariable_passing _) fun _ => .step fun _ => .bind (loop_passing
    (fun _ hc h => left_ne_zero_of_inside hc h) hmethod (fun n hn => Compile.takes_method
      (hdecl.takes n (hn.trans_le hk)) (hn.trans_le (hk.trans hfuel))) (hk.trans hfuel)) fun _ => .step fun _ =>
    .step fun _ => fun c _ hc => ?_
  change (if c.classes.head?.any (·.hasSuperclass) = true then endScope else pure () : Checked Unit)
    { c with classes := c.classes.drop 1 } = some ((if c.classes.head?.any (·.hasSuperclass) = true then
      Compile.endScope else pure () : Compile Unit) { c with classes := c.classes.drop 1 })
  split
  · rename_i hclass
    exact endScope_eq (hc.superScope hb hclass)
  · rfl

theorem classDeclaration_passing (hdecl : Parses b.left decl' decl) (hfuel : b.left ≤ fuel) :
    Passing b (classDeclaration decl' fuel) (Compile.classDeclaration decl fuel) := by
  have hblind : Blind (modify fun c => { c with classes := {} :: c.classes } : Compile Unit) :=
    Compile.blind_modify fun h => { h with classes := congrArg (List.cons _) h.classes }
  have hfeeds : Along Compiler.Feeds (modify fun c => { c with classes := {} :: c.classes } : Compile Unit) :=
    ⟨fun c => Compile.Scoping.classes c ({} :: ·)⟩
  have hclass : ∀ c : Compiler, c.left < b.left → c.classes.head? = some {} →
      (⟨b.left, 0, 0, true⟩ : Bounds).Holds c := fun c hleft hhead =>
    ⟨hleft, Nat.zero_le _, Nat.zero_le _, fun _ h => by simp [hhead] at h⟩
  unfold classDeclaration Compile.classDeclaration
  refine .step fun _ => .step fun name => .step fun constant => .step fun _ => .step fun _ => .step fun _ =>
    .into _ (.plain _) (P := fun c => c.classes.head? = some {}) (fun _ => rfl) hclass fun _ =>
    .accept _ (by decide) ?_ (classBody_passing hdecl hfuel (by exact le_rfl) (by rfl) name)
  refine .into ⟨b.left - 1, 0, 0, true⟩ (superclass_passing name) (Compiler.superclass_opens name)
    (fun c hleft hdepth => ⟨hleft, Nat.zero_le _, Nat.zero_le _, fun _ _ => hdepth⟩) fun _ => ?_
  exact classBody_passing hdecl hfuel (Nat.sub_le _ _) rfl name

/-- Every round of the recovery skips a token. -/
theorem synchronize_passing (hfuel : b.left ≤ fuel) : Passing b (synchronize fuel) (Compile.synchronize fuel) := by
  have hcalm : Regular (modify fun c => { c with panicking := false } : Compile Unit) := by
    have := Compile.blind_modify (f := fun c => { c with panicking := false }) fun h => { h with panicking := rfl }
    have hfeeds : Along Compiler.Feeds (modify fun c => { c with panicking := false } : Compile Unit) :=
      ⟨Compiler.Steady.calm (R := Compiler.Feeds)⟩
    have hlevel : Along Compiler.Level (modify fun c => { c with panicking := false } : Compile Unit) :=
      ⟨Compiler.Steady.calm (R := Compiler.Level)⟩
    infer_instance
  have hinside : Blind (do
      let c ← get
      return c.current.kind != .eof && c.previous.kind != .semicolon
        && !Compile.startsStatement c.current.kind : Compile Bool) :=
    .reads (fun _ => inferInstance) fun h => by rw [h.current, h.previous]
  unfold synchronize Compile.synchronize
  refine .step fun _ => loop_passing (fun c hc h hzero => ?_) (.plain _) (fun _ _ => Compile.takes_advance) hfuel
  change (c.current.kind != .eof && c.previous.kind != .semicolon
    && !Compile.startsStatement c.current.kind) = true at h
  simp [hc.fed.left_eq_zero_iff.1 hzero] at h

theorem declarationRule_passing (hexpr : Parses b.left expr' expr) (hstmt : Parses b.left stmt' stmt)
    (hdecl : Parses (b.left - 1) decl' decl) (hfuel : b.left ≤ fuel) :
    Passing b (declarationRule expr' stmt' decl' fuel) (Compile.declarationRule expr stmt decl fuel) := by
  have hclass := Compiler.Nested.cls (R := Compiler.Feeds) decl fuel
  have hclass' := Compiler.Nested.cls (R := Compiler.Level) decl fuel
  have htaken : b.taken.left ≤ b.left := Nat.sub_le _ _
  have hend : ∀ b' : Bounds, b'.left ≤ b.left → Passing b'
      (get >>= fun c => if c.panicking = true then synchronize fuel else pure ())
      (get >>= fun c => if c.panicking = true then Compile.synchronize fuel else pure ()) := fun b' hb' =>
    .get fun _ => .ite (synchronize_passing (hb'.trans hfuel)) (.pure ())
  unfold declarationRule Compile.declarationRule
  refine .accept _ (by decide) (.bind (classDeclaration_passing (b := b.taken) hdecl (htaken.trans hfuel))
    fun _ => hend _ htaken) ?_
  refine .accept _ (by decide) (.bind (funDeclaration_passing (b := b.taken) hdecl (htaken.trans hfuel))
    fun _ => hend _ htaken) ?_
  refine .accept _ (by decide) (.bind (varDeclaration_passing (b := b.taken) (hexpr.mono htaken))
    fun _ => hend _ htaken) ?_
  exact .bind (hstmt.passing le_rfl) fun _ => hend _ le_rfl

end Rules

/-- **Statements and declarations**: a declaration may be a statement and a statement an expression without a
token of their own, so there have to be two steps for each token. -/
theorem parses (n : Nat) : Parses (n / 2) (statement n) (Compile.statement n) ∧
    Parses ((n - 1) / 2) (declaration n) (Compile.declaration n) := by
  induction n with
  | zero =>
    exact ⟨⟨fun _ _ h => absurd h (Nat.not_lt_zero _), fun _ h => absurd h (Nat.not_lt_zero _)⟩,
      ⟨fun _ _ h => absurd h (Nat.not_lt_zero _), fun _ h => absurd h (Nat.not_lt_zero _)⟩⟩
  | succ n ih =>
    obtain ⟨hstmt, hdecl⟩ := ih
    have hexpr := parsePrecedence_parses n .assignment nofun
    have hexpr' : Parses ((n + 1) / 2) (expression n) (Compile.expression n) := hexpr.mono (by omega)
    have hexpr'' : Parses (n / 2) (expression n) (Compile.expression n) := hexpr.mono (by omega)
    have hstmt' : Parses ((n + 1) / 2 - 1) (statement n) (Compile.statement n) := hstmt.mono (by omega)
    have hdecl' : Parses ((n + 1) / 2 - 1) (declaration n) (Compile.declaration n) := hdecl.mono (by omega)
    have hdecl'' : Parses (n / 2 - 1) (declaration n) (Compile.declaration n) := hdecl.mono (by omega)
    refine ⟨.of_taking ?_ fun m hm => ?_, .of_taking ?_ fun m hm => ?_⟩
    · exact statementRule_passing (b := ⟨(n + 1) / 2, 0, 0, false⟩) hexpr' hstmt' hdecl'
        (show (n + 1) / 2 - 1 ≤ n by omega)
    · exact Compile.takes_statementRule (hexpr'.takes m hm)
    · exact declarationRule_passing (b := ⟨n / 2, 0, 0, false⟩) hexpr'' hstmt hdecl'' (Nat.div_le_self n 2)
    · exact Compile.takes_declarationRule (hstmt.takes m hm)

/-! ## Sources -/

end Checked

namespace Token

/-- A number ends before the text does. -/
theorem numberTail_le (rest : List Char) : numberTail rest ≤ rest.length := by
  have hsplit : (rest.takeWhile Char.isDigit).length + (rest.dropWhile Char.isDigit).length = rest.length := by
    rw [← List.length_append, List.takeWhile_append_dropWhile]
  unfold numberTail
  dsimp only
  split
  · rename_i d more heq
    have hmore := (List.takeWhile_prefix (l := more) Char.isDigit).length_le
    rw [heq] at hsplit
    simp only [List.length_cons] at hsplit
    split <;> omega
  · omega

theorem stringTail_le (rest : List Char) : (stringTail rest).2 ≤ rest.length := by
  rcases stringTail_cases rest with ⟨-, heq⟩ | ⟨inside, more, hrest, -, heq⟩
  · rw [heq]
  · have hlength := congrArg List.length hrest
    rw [List.length_append, List.length_cons] at hlength
    rw [heq]
    dsimp only
    omega

/-- **A token ends before the text does.** -/
theorem extent_le (c : Char) (rest : List Char) : (extent c rest).2 ≤ rest.length := by
  have hword := (List.takeWhile_prefix (l := rest) isWordPart).length_le
  have hequal : ∀ long short, (withEqual rest long short).2 ≤ rest.length := fun long short => by
    unfold withEqual
    split <;> simp
  unfold extent
  split
  · exact hword
  · split
    · exact numberTail_le rest
    · split <;> first | exact Nat.zero_le _ | exact hequal _ _ | exact stringTail_le rest

/-- **A string has its quotes.** -/
theorem quoted_extent (c : Char) (rest : List Char) (line : Nat) :
    Quoted ⟨(extent c rest).1, String.ofList (c :: rest.take (extent c rest).2), line⟩ := by
  intro hkind
  dsimp only at hkind ⊢
  have hquote : c = '"' ∧ (extent c rest) = stringTail rest := by
    unfold extent withEqual at hkind ⊢
    split at hkind
    · unfold TokenKind.ofWord at hkind
      dsimp only at hkind
      split at hkind <;> cases hkind
    · split at hkind
      · cases hkind
      · split at hkind <;> first | exact ⟨rfl, rfl⟩ | (first | cases hkind | (split at hkind <;> cases hkind))
  obtain ⟨rfl, hextent⟩ := hquote
  rw [hextent] at hkind ⊢
  rcases stringTail_cases rest with ⟨-, herror⟩ | ⟨inside, more, hrest, -, heq⟩
  · rw [herror] at hkind
    cases hkind
  · have htake : rest.take (inside.length + 1) = inside ++ ['"'] := by
      rw [hrest, List.take_length_add_append]
      rfl
    rw [heq]
    dsimp only
    rw [htake, String.toList_ofList, ← List.cons_append]
    exact ⟨by simp, rfl, List.getLast?_concat⟩

theorem Quoted.lexeme {kind : TokenKind} {piece : String} {line : Nat} (h : Quoted ⟨kind, piece, line⟩) :
    Quoted ⟨kind, kind.lexeme piece, line⟩ := by
  intro hkind
  obtain rfl : kind = .string := hkind
  exact h rfl

end Token

namespace Checked

theorem next_eq (s : Source) : next s = some s.next := by
  unfold next
  split
  · rfl
  · change (guard (_ ≤ _) >>= fun _ => some s.next) = _
    rw [guard, if_pos (Token.extent_le _ _)]
    rfl

theorem tokensOnto_eq (n : Nat) (taken : List Token) (s : Source) (h : s.rest.length < n) :
    tokensOnto n taken s = some (Source.tokensOnto n taken s) := by
  induction n generalizing taken s with
  | zero => omega
  | succ n ih =>
    unfold tokensOnto Source.tokensOnto
    rw [next_eq]
    change (if s.next.1.kind = .eof then some (s.next.1 :: taken) else
      tokensOnto n (s.next.1 :: taken) s.next.2) = _
    dsimp only
    split
    · rfl
    · rename_i hne
      have hlt := Source.length_rest_next_lt s hne
      exact ih _ _ (by omega)

/-- **The scanner comes to the end of every text.** -/
theorem tokens_eq (s : Source) : tokens s = some s.tokens := by
  unfold tokens
  rw [tokensOnto_eq _ _ _ (Nat.lt_succ_self _)]
  rfl

theorem quoted_next (s : Source) : s.next.1.Quoted := by
  unfold Source.next
  split
  · exact nofun
  · exact (Token.quoted_extent _ _ _).lexeme

theorem quoted_tokensOnto (n : Nat) {taken : List Token} (h : ∀ t ∈ taken, t.Quoted) (s : Source) :
    ∀ t ∈ Source.tokensOnto n taken s, t.Quoted := by
  induction n generalizing taken s with
  | zero => exact h
  | succ n ih =>
    have hnext : ∀ t ∈ s.next.1 :: taken, t.Quoted := List.forall_mem_cons.2 ⟨quoted_next s, h⟩
    unfold Source.tokensOnto
    dsimp only
    split
    · exact hnext
    · exact ih hnext _

theorem quoted_tokens (s : Source) : ∀ t ∈ s.tokens, t.Quoted := fun t ht =>
  quoted_tokensOnto _ (List.forall_mem_nil _) s t (List.mem_reverse.1 ht)

/-- The state after the first token. -/
theorem advance_start {heap : Heap} (hh : heap.Healthy) (source : String) (roots : Thunk (List Handle)) :
    (Compile.advance (Compiler.start source heap roots)).2.Fine ∧
      (Compile.advance (Compiler.start source heap roots)).2.left <
        (Compiler.start source heap roots).rest.length := by
  obtain ⟨-, R, htwin⟩ := Compile.Blind.agree (x := Compile.advance) (start_twin hh.twin hh hh source roots roots)
  obtain ⟨hfed, hleft⟩ := Compiler.pull_fed
    (c := { Compiler.start source heap roots with previous := (Compiler.start source heap roots).current })
    (Source.eof_mem_tokens _) (quoted_tokens _) nofun
  exact ⟨⟨hfed, _, R, htwin⟩, hleft⟩

/-- **The whole parser** passes its checks. -/
theorem parse_eq {heap : Heap} (hh : heap.Healthy) (source : String) (roots : Thunk (List Handle)) :
    parse (Compiler.fuel (Compiler.start source heap roots).rest.length) (Compiler.start source heap roots) =
      some (Compile.parse (Compiler.fuel (Compiler.start source heap roots).rest.length)
        (Compiler.start source heap roots)) := by
  obtain ⟨hfine, hleft⟩ := advance_start hh source roots
  unfold parse
  generalize Compiler.start source heap roots = c at hfine hleft ⊢
  generalize hlength : c.rest.length = length at hleft ⊢
  have hdecl : Parses length (declaration (Compiler.fuel length)) (Compile.declaration (Compiler.fuel length)) :=
    (parses _).2.mono (by unfold Compiler.fuel; omega)
  have hloop : Passing ⟨length, 0, 0, false⟩ (loop (return !(← Compile.accept .eof))
      (declaration (Compiler.fuel length)) (Compiler.fuel length)) (Compile.loop (return !(← Compile.accept .eof))
      (Compile.declaration (Compiler.fuel length)) (Compiler.fuel length)) :=
    loop_passing (fun c hc h => ?_) (hdecl.passing le_rfl) hdecl.takes (by unfold Compiler.fuel; dsimp only; omega)
  · exact bind_eq (bind_eq rfl (hloop _ hfine (Bounds.holds_of_left hleft)))
      (endFunction_passing _ (hfine.after (Compile.loop (return !(← Compile.accept .eof))
        (Compile.declaration (Compiler.fuel length)) (Compiler.fuel length))).1
        (Bounds.holds_of_left (Nat.lt_succ_self _)))
  · change (!(Compile.accept .eof c).1) = true at h
    rw [Compile.accept_eq_ite] at h
    change (Compile.accept .eof c).2.left ≠ 0
    rw [Compile.accept_eq_ite]
    by_cases heof : c.current.kind = .eof
    · simp [heof] at h
    · rw [if_neg heof, Ne, hc.fed.left_eq_zero_iff]
      exact heof

theorem compile_eq_map {heap : Heap} (source : String) (roots : Thunk (List Handle)) :
    compile source heap roots = (parse (Compiler.fuel (Compiler.start source heap roots).rest.length)
      (Compiler.start source heap roots)).map fun (d, c) =>
        if c.errors.isEmpty then
          let (h, heap) := c.heap.alloc roots (.function d.function)
          (.ok h, heap)
        else (.error c.errors, c.heap) := by
  have hrest : tokens (.ofString source) = some (Compiler.start source heap roots).rest := tokens_eq _
  unfold compile
  rw [hrest]
  generalize Compiler.start source heap roots = start
  change (parse (Compiler.fuel start.rest.length) start).bind _ =
    (parse (Compiler.fuel start.rest.length) start).map _
  cases parse (Compiler.fuel start.rest.length) start with
  | none => rfl
  | some p =>
    obtain ⟨d, c⟩ := p
    dsimp only [Option.bind_some, Option.map_some]
    split <;> rfl

/-- **No compilation fails**: the compiler with all its checks answers, and as the compiler without them. -/
theorem compile_never_fails {heap : Heap} (hh : heap.Healthy) (source : String) (roots : Thunk (List Handle)) :
    compile source heap roots = some (LoxMachine.compile source heap roots) := by
  rw [compile_eq_map, parse_eq hh, LoxMachine.compile_eq]
  rfl

/-- A class body without a method, that ends in the middle of a text. -/
theorem compile_never_fails_unclosed :
    Heap.Healthy {} ∧
      Checked.compile "class A \x7b + return ) \"" {} (Thunk.pure []) =
        some (LoxMachine.compile "class A \x7b + return ) \"" {} (Thunk.pure [])) ∧
      (LoxMachine.compile "class A \x7b + return ) \"" {} (Thunk.pure [])).1.isOk = false :=
  have hh : Heap.Healthy {} := Heap.healthy_of_empty rfl rfl rfl rfl
  ⟨hh, compile_never_fails hh _ _, by decide +kernel⟩

end Checked

end LoxMachine
