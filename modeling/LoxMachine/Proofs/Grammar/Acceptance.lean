import LoxMachine.Proofs.Grammar.Derivations
import LoxMachine.Proofs.Grammar.Sources

/-!
# What the parser accepts

Where the parser meets no error, the tokens it has read are the symbols of a grammatical program.

* `statement_declaration_derive`: a statement or declaration that is parsed without an error is a tree.
* `exists_parses`: a source that compiles is the source text of a program.
-/

namespace LoxMachine

open Compile

set_option synthInstance.maxSize 4096

variable {c c₀ : Compiler} {n : Nat}

/-! ## Parts of statements -/

theorem expression_ends (hc : c.Ready) (hn : c.upcoming.length ≤ n) :
    Ends (expression n) c fun _ c' => ∃ e : Expression, e.Grammatical ∧ c.Passes e.symbols c' :=
  (Derives.whole (parsePrecedence_derives n) hc hn).mono fun _ _ ⟨e, he, h, _⟩ => ⟨e, he, h⟩

theorem parseVariable_ends {e : Expectation} (hc : c.Ready) :
    Ends (parseVariable e) c fun _ c' => ∃ name, c.Passes [.name name] c' := by
  refine (consume_name_ends hc).bind fun _ c₁ ⟨name, h₁⟩ => ?_
  exact (still_ends _ h₁.ready).mono fun _ c₂ h₂ => ⟨name, h₁.rest h₂⟩

/-- A variable declaration, of which `var` has been read. -/
theorem varDeclaration_ends (h : c₀.Passes [TokenKind.kwVar.symbol] c) (hn : c.upcoming.length ≤ n) :
    Ends (varDeclaration (expression n)) c fun _ c' => ∃ name value,
      Expression.OptionGrammatical value ∧ c₀.Passes (variableSymbols name value) c' := by
  have hend : ∀ {c₁ : Compiler} {global : UInt8} {w : List Symbol}, c₀.Passes w c₁ →
      Ends (do
        consume .semicolon .semicolonAfterVariable
        defineVariable global) c₁ fun _ c' => c₀.Passes (w ++ [TokenKind.semicolon.symbol]) c' := by
    intro c₁ global w h₁
    refine (consume_ends h₁.ready rfl (by decide)).bind fun _ c₂ h₂ => ?_
    exact (still_ends _ h₂.ready).mono fun _ c₃ h₃ => h₁.trans (h₂.rest h₃)
  refine (parseVariable_ends h.ready).bind fun global c₁ ⟨name, h₁⟩ => ?_
  have h₂ := h.trans h₁
  refine accept_ends h₂.ready rfl (by decide) (fun c₃ _ h₃ => ?_) fun _ => ?_
  · have hlength := (h₁.trans h₃).length
    refine (expression_ends h₃.ready (by omega)).bind fun _ c₄ ⟨e, he, h₄⟩ => ?_
    refine (hend ((h₂.trans h₃).trans h₄)).mono fun _ c₅ h₅ => ⟨name, some e, he, ?_⟩
    simpa [variableSymbols] using h₅
  · refine (still_ends _ h₂.ready).bind fun _ c₃ h₃ => ?_
    exact (hend (h₂.rest h₃)).mono fun _ c₅ h₅ => ⟨name, none, trivial, h₅⟩

/-! ## Statements -/

/-- A statement that is parsed without an error is a tree. -/
def StatementsDerive (n : Nat) : Prop :=
  ∀ {c : Compiler}, c.Ready → 2 * c.upcoming.length ≤ n →
    Ends (statement n) c fun _ c' => ∃ s : Statement, s.Grammatical ∧ c.Passes s.symbols c' ∧
      (s.isOpen = true → c'.current.kind ≠ .kwElse)

/-- A declaration that is parsed without an error is a tree. -/
def DeclarationsDerive (n : Nat) : Prop :=
  ∀ {c : Compiler}, c.Ready → 2 * c.upcoming.length < n →
    Ends (declaration n) c fun _ c' => ∃ d : Declaration, d.Grammatical ∧ c.Passes d.symbols c'

section Rules

/-- Whether a block or a class body goes on. -/
theorem inside_ends : Ends (do return !(← check .rightBrace) && !(← check .eof)) c fun _ c' => c' = c :=
  fun _ => rfl

/-- Trees of one kind, up to the closing brace. -/
theorem members_ends {τ : Type} (symbols : τ → List Symbol) (Good : τ → Prop) {x : Compile Unit} [Orderly x]
    (hx : ∀ {c : Compiler}, c.Ready → 2 * c.upcoming.length < n →
      Ends x c fun _ c' => ∃ t, Good t ∧ c.Passes (symbols t) c')
    (j : Nat) (hc : c.Ready) (hn : 2 * c.upcoming.length < n) :
    Ends (loop (do return !(← check .rightBrace) && !(← check .eof)) x j) c fun _ c' =>
      ∃ ts : List τ, (∀ t ∈ ts, Good t) ∧ c.Passes (ts.flatMap symbols) c' := by
  induction j generalizing c with
  | zero => exact fun _ => ⟨[], nofun, hc.passes⟩
  | succ j ih =>
    unfold loop
    refine inside_ends.bind fun b c₁ hc₁ => ?_
    subst hc₁
    cases b with
    | false => exact fun _ => ⟨[], nofun, hc.passes⟩
    | true =>
      refine (hx hc hn).bind fun _ c₂ ⟨t, ht, h₂⟩ => ?_
      have hlength := h₂.length
      refine (ih h₂.ready (by omega)).mono fun _ c₃ ⟨ts, hts, h₃⟩ => ⟨t :: ts, ?_, ?_⟩
      · exact List.forall_mem_cons.2 ⟨ht, hts⟩
      · rw [List.flatMap_cons]
        exact h₂.trans h₃

theorem Declaration.listGrammatical_iff (body : List Declaration) :
    ListGrammatical body ↔ ∀ d ∈ body, d.Grammatical := by
  induction body with
  | nil => simp [ListGrammatical]
  | cons d body ih => rw [ListGrammatical, ih, List.forall_mem_cons]

theorem Declaration.listSymbols_eq (body : List Declaration) : listSymbols body = body.flatMap symbols := by
  induction body with
  | nil => rfl
  | cons d body ih => rw [listSymbols, ih, List.flatMap_cons]

theorem Routine.listGrammatical_iff (methods : List Routine) :
    ListGrammatical methods ↔ ∀ f ∈ methods, f.Grammatical := by
  induction methods with
  | nil => simp [ListGrammatical]
  | cons f methods ih => rw [ListGrammatical, ih, List.forall_mem_cons]

theorem Routine.listSymbols_eq (methods : List Routine) :
    listSymbols methods = methods.flatMap symbols := by
  induction methods with
  | nil => rfl
  | cons f methods ih => rw [listSymbols, ih, List.flatMap_cons]

/-- **A block**, of which the opening brace has been read. -/
theorem block_ends (hdecl : DeclarationsDerive n) (hc : c.Ready) (hn : 2 * c.upcoming.length < n) :
    Ends (block (declaration n) n) c fun _ c' => ∃ body, Declaration.ListGrammatical body ∧
      c.Passes (Declaration.listSymbols body ++ [TokenKind.rightBrace.symbol]) c' := by
  refine (members_ends Declaration.symbols Declaration.Grammatical hdecl n hc hn).bind
    fun _ c₁ ⟨body, hbody, h₁⟩ => ?_
  refine (consume_ends h₁.ready rfl (by decide)).mono fun _ c₂ h₂ => ⟨body, ?_, ?_⟩
  · exact (Declaration.listGrammatical_iff body).2 hbody
  · rw [Declaration.listSymbols_eq]
    exact h₁.trans h₂

/-! ### Functions -/

theorem parameters_ends {j : Nat} (hc : c.Ready) (hj : c.upcoming.length ≤ j) :
    Ends (parameters j) c fun _ c' => ∃ ps, c.Passes (parameterSymbols ps) c' := by
  have hfrom : ∀ (j : Nat) {c : Compiler}, c.Ready → c.upcoming.length ≤ j →
      Ends (parameters j) c fun _ c' => ∃ p ps, c.Passes (parameterSymbols (p :: ps)) c' := by
    intro j
    induction j with
    | zero =>
      intro c _ hj
      have := c.length_upcoming_pos
      omega
    | succ j ih =>
      intro c hc hj
      rw [parameters_succ]
      refine (still_ends _ hc).bind fun _ c₁ h₁ => ?_
      have h₁ := hc.passes.rest h₁
      refine (parseVariable_ends h₁.ready).bind fun _ c₂ ⟨p, h₂⟩ => ?_
      refine (still_ends _ h₂.ready).bind fun _ c₃ h₃ => ?_
      have h₄ := h₁.trans (h₂.rest h₃)
      refine accept_ends h₄.ready rfl (by decide) (fun c₅ _ h₅ => ?_) fun _ _ => ⟨p, [], h₄⟩
      have hlength := (h₄.trans h₅).length
      simp only [List.length_append, List.length_singleton] at hlength
      refine (ih h₅.ready (by omega)).mono fun _ c₆ ⟨q, ps, h₆⟩ => ⟨p, q :: ps, ?_⟩
      simpa [parameterSymbols] using h₄.trans (h₅.trans h₆)
  exact (hfrom j hc hj).mono fun _ _ ⟨p, ps, h⟩ => ⟨p :: ps, h⟩

/-- **A function**, of which the name has been read. -/
theorem functionBody_ends (hdecl : DeclarationsDerive n) {kind : FunctionKind} {name : String}
    (h : c₀.Passes [.name name] c) (hn : 2 * c.upcoming.length < n) :
    Ends (functionBody (declaration n) n kind) c fun _ c' => ∃ f : Routine,
      f.Grammatical ∧ c₀.Passes f.symbols c' := by
  have hrest : ∀ (ps : List String) {c₁ : Compiler}, c₁.upcoming.length ≤ c.upcoming.length →
      c₀.Passes (.name name :: TokenKind.leftParen.symbol :: parameterSymbols ps) c₁ →
      Ends (functionRest (declaration n) n) c₁ fun _ c' => ∃ f : Routine,
        f.Grammatical ∧ c₀.Passes f.symbols c' := by
    intro ps c₁ hlength h₁
    unfold functionRest
    refine (consume_ends h₁.ready rfl (by decide)).bind fun _ c₂ h₂ => ?_
    refine (consume_ends h₂.ready rfl (by decide)).bind fun _ c₃ h₃ => ?_
    have hlength₃ := (h₂.trans h₃).length
    refine (block_ends hdecl h₃.ready (by omega)).bind fun _ c₄ ⟨body, hbody, h₄⟩ => ?_
    refine (still_ends _ h₄.ready).mono fun _ c₅ h₅ => ⟨.mk name ps body, hbody, ?_⟩
    simpa [Routine.symbols] using h₁.trans (h₂.trans (h₃.trans (h₄.rest h₅)))
  rw [functionBody_eq]
  refine (still_ends _ h.ready).bind fun _ c₁ h₁ => ?_
  refine (still_ends _ h₁.passes.ready).bind fun _ c₂ h₂ => ?_
  have h₃ := (h.rest h₁).rest h₂
  have hlength₃ := (h₁.passes.rest h₂).length
  refine (consume_ends h₃.ready rfl (by decide)).bind fun _ c₄ h₄ => ?_
  have hlength₄ := h₄.length
  simp only [List.length_nil, List.length_singleton] at hlength₃ hlength₄
  refine (check_ends .rightParen).bind fun b c₅ ⟨hc₅, _⟩ => ?_
  subst hc₅
  cases b with
  | true => exact hrest [] (by omega) (h₃.trans h₄)
  | false =>
    refine (parameters_ends h₄.ready (by omega)).bind fun _ c₆ ⟨ps, h₆⟩ => ?_
    have hlength₆ := h₆.length
    exact hrest ps (by omega) (h₃.trans (h₄.trans h₆))

theorem funDeclaration_ends (hdecl : DeclarationsDerive n) (hc : c.Ready) (hn : 2 * c.upcoming.length < n) :
    Ends (funDeclaration (declaration n) n) c fun _ c' => ∃ f : Routine,
      f.Grammatical ∧ c.Passes f.symbols c' := by
  refine (parseVariable_ends hc).bind fun _ c₁ ⟨name, h₁⟩ => ?_
  refine (still_ends _ h₁.ready).bind fun _ c₂ h₂ => ?_
  have h₃ := h₁.rest h₂
  have hlength := h₃.length
  refine (functionBody_ends hdecl h₃ (by omega)).bind fun _ c₄ ⟨f, hf, h₄⟩ => ?_
  exact (still_ends _ h₄.ready).mono fun _ c₅ h₅ => ⟨f, hf, h₄.rest h₅⟩

/-! ### Classes -/

theorem method_ends (hdecl : DeclarationsDerive n) (hc : c.Ready) (hn : 2 * c.upcoming.length < n) :
    Ends (method (declaration n) n) c fun _ c' => ∃ f : Routine,
      f.Grammatical ∧ c.Passes f.symbols c' := by
  refine (consume_name_ends hc).bind fun _ c₁ ⟨name, h₁⟩ => ?_
  refine (still_ends _ h₁.ready).bind fun _ c₂ h₂ => ?_
  refine (still_ends _ (h₁.rest h₂).ready).bind fun _ c₃ h₃ => ?_
  have h₄ := (h₁.rest h₂).rest h₃
  have hlength := h₄.length
  refine (functionBody_ends hdecl h₄ (by omega)).bind fun _ c₅ ⟨f, hf, h₅⟩ => ?_
  exact (still_ends _ h₅.ready).mono fun _ c₆ h₆ => ⟨f, hf, h₅.rest h₆⟩

theorem classBody_ends (hdecl : DeclarationsDerive n) {name : String} (hc : c.Ready)
    (hn : 2 * c.upcoming.length < n) :
    Ends (classBody (declaration n) n name) c fun _ c' => ∃ methods, Routine.ListGrammatical methods ∧
      c.Passes (TokenKind.leftBrace.symbol ::
        (Routine.listSymbols methods ++ [TokenKind.rightBrace.symbol])) c' := by
  unfold classBody
  refine (still_ends _ hc).bind fun _ c₁ h₁ => ?_
  have h₁ := hc.passes.rest h₁
  refine (consume_ends h₁.ready rfl (by decide)).bind fun _ c₂ h₂ => ?_
  have hlength := (h₁.trans h₂).length
  refine (members_ends Routine.symbols Routine.Grammatical (method_ends hdecl) n h₂.ready (by omega)).bind
    fun _ c₃ ⟨methods, hmethods, h₃⟩ => ?_
  refine (consume_ends h₃.ready rfl (by decide)).bind fun _ c₄ h₄ => ?_
  refine (still_ends _ h₄.ready).mono fun _ c₅ h₅ => ⟨methods, ?_, ?_⟩
  · exact (Routine.listGrammatical_iff methods).2 hmethods
  rw [Routine.listSymbols_eq]
  simpa using h₁.trans (h₂.trans (h₃.trans (h₄.rest h₅)))

/-- **A class declaration**, of which `class` has been read. -/
theorem classDeclaration_ends (hdecl : DeclarationsDerive n) (h : c₀.Passes [TokenKind.kwClass.symbol] c)
    (hn : 2 * c.upcoming.length < n) :
    Ends (classDeclaration (declaration n) n) c fun _ c' => ∃ d : Declaration,
      d.Grammatical ∧ c₀.Passes d.symbols c' := by
  unfold classDeclaration
  dsimp only
  refine (consume_name_ends h.ready).bind fun _ c₁ ⟨name, h₁⟩ => ?_
  refine (still_ends _ h₁.ready).bind fun text c₂ h₂ => ?_
  refine (still_ends _ h₂.passes.ready).bind fun _ c₃ h₃ => ?_
  refine (still_ends _ h₃.passes.ready).bind fun _ c₄ h₄ => ?_
  refine (still_ends _ h₄.passes.ready).bind fun _ c₅ h₅ => ?_
  refine (still_ends _ h₅.passes.ready).bind fun _ c₆ h₆ => ?_
  refine (still_ends _ h₆.passes.ready).bind fun _ c₇ h₇ => ?_
  have h₈ := (((((h₁.rest h₂).rest h₃).rest h₄).rest h₅).rest h₆).rest h₇
  have hlength := h₈.length
  refine accept_ends h₈.ready rfl (by decide) (fun c₉ _ h₉ => ?_) fun _ => ?_
  · have hsuper : Ends (superclass text) c₉ fun _ c' => ∃ super, c₉.Passes [.name super] c' := by
      unfold superclass
      refine (consume_name_ends h₉.ready).bind fun _ c₁₀ ⟨super, h₁₀⟩ => ?_
      exact (still_ends _ h₁₀.ready).mono fun _ c₁₁ h₁₁ => ⟨super, h₁₀.rest h₁₁⟩
    refine hsuper.bind fun _ c₁₀ ⟨super, h₁₀⟩ => ?_
    have hlength₁₀ := (h₉.trans h₁₀).length
    refine (classBody_ends hdecl h₁₀.ready (by omega)).mono fun _ c₁₁ ⟨methods, hmethods, h₁₁⟩ => ?_
    refine ⟨.cls name (some super) methods, hmethods, ?_⟩
    simpa [Declaration.symbols] using h.trans (h₈.trans (h₉.trans (h₁₀.trans h₁₁)))
  · refine (classBody_ends hdecl h₈.ready (by omega)).mono fun _ c₉ ⟨methods, hmethods, h₉⟩ => ?_
    refine ⟨.cls name none methods, hmethods, ?_⟩
    simpa [Declaration.symbols] using h.trans (h₈.trans h₉)

/-! ### Statements -/

theorem ifStatement_ends (hstmt : StatementsDerive n) (h : c₀.Passes [TokenKind.kwIf.symbol] c)
    (hn : 2 * c.upcoming.length ≤ n) :
    Ends (ifStatement (expression n) (statement n)) c fun _ c' => ∃ s : Statement, s.Grammatical ∧
      c₀.Passes s.symbols c' ∧ (s.isOpen = true → c'.current.kind ≠ .kwElse) := by
  unfold ifStatement
  dsimp only
  refine (consume_ends h.ready rfl (by decide)).bind fun _ c₁ h₁ => ?_
  have hlength₁ := h₁.length
  refine (expression_ends h₁.ready (by omega)).bind fun _ c₂ ⟨e, he, h₂⟩ => ?_
  refine (consume_ends h₂.ready rfl (by decide)).bind fun _ c₃ h₃ => ?_
  refine (still_ends _ h₃.ready).bind fun _ c₄ h₄ => ?_
  refine (still_ends _ h₄.passes.ready).bind fun _ c₅ h₅ => ?_
  have h₆ := h.trans (h₁.trans (h₂.trans ((h₃.rest h₄).rest h₅)))
  have hlength₆ := (h₁.trans (h₂.trans ((h₃.rest h₄).rest h₅))).length
  refine (hstmt h₆.ready (by omega)).bind fun _ c₇ ⟨body, hbody, h₇, hopen⟩ => ?_
  refine (still_ends _ h₇.ready).bind fun _ c₈ h₈ => ?_
  refine (still_ends _ h₈.passes.ready).bind fun _ c₉ h₉ => ?_
  refine (still_ends _ h₉.passes.ready).bind fun _ c₁₀ h₁₀ => ?_
  have h₁₁ := ((h₇.rest h₈).rest h₉).rest h₁₀
  have hcurrent : c₁₀.current = c₇.current := by rw [h₁₀.current, h₉.current, h₈.current]
  refine accept_ends h₁₁.ready rfl (by decide) (fun c₁₂ helse h₁₂ => ?_) fun helse => ?_
  · have hlength₁₂ := (h₁₁.trans h₁₂).length
    refine (hstmt h₁₂.ready (by omega)).bind fun _ c₁₃ ⟨otherwise, hotherwise, h₁₃, hopen'⟩ => ?_
    refine (still_ends _ h₁₃.ready).mono fun _ c₁₄ h₁₄ => ⟨.ifThenElse e body otherwise, ?_, ?_, ?_⟩
    · refine ⟨he, hbody, Bool.eq_false_iff.2 fun hopened => hopen hopened ?_, hotherwise⟩
      rw [← hcurrent, helse]
    · simpa [Statement.symbols] using h₆.trans (h₁₁.trans (h₁₂.trans (h₁₃.rest h₁₄)))
    · rw [h₁₄.current]
      exact hopen'
  · refine (still_ends _ h₁₁.ready).mono fun _ c₁₂ h₁₂ => ⟨.ifThen e body, ⟨he, hbody⟩, ?_, fun _ => ?_⟩
    · simpa [Statement.symbols] using h₆.trans (h₁₁.rest h₁₂)
    · rwa [h₁₂.current]

theorem whileStatement_ends (hstmt : StatementsDerive n) (h : c₀.Passes [TokenKind.kwWhile.symbol] c)
    (hn : 2 * c.upcoming.length ≤ n) :
    Ends (whileStatement (expression n) (statement n)) c fun _ c' => ∃ s : Statement, s.Grammatical ∧
      c₀.Passes s.symbols c' ∧ (s.isOpen = true → c'.current.kind ≠ .kwElse) := by
  unfold whileStatement
  refine (still_ends _ h.ready).bind fun _ c₁ h₁ => ?_
  refine (consume_ends h₁.passes.ready rfl (by decide)).bind fun _ c₂ h₂ => ?_
  have hlength₂ := (h₁.passes.trans h₂).length
  refine (expression_ends h₂.ready (by omega)).bind fun _ c₃ ⟨e, he, h₃⟩ => ?_
  refine (consume_ends h₃.ready rfl (by decide)).bind fun _ c₄ h₄ => ?_
  refine (still_ends _ h₄.ready).bind fun _ c₅ h₅ => ?_
  refine (still_ends _ h₅.passes.ready).bind fun _ c₆ h₆ => ?_
  have h₇ := h₂.trans (h₃.trans ((h₄.rest h₅).rest h₆))
  have hlength₇ := (h₁.passes.trans h₇).length
  refine (hstmt h₇.ready (by omega)).bind fun _ c₈ ⟨body, hbody, h₈, hopen⟩ => ?_
  refine (still_ends _ h₈.ready).mono fun _ c₉ h₉ => ⟨.whileLoop e body, ⟨he, hbody⟩, ?_, ?_⟩
  · simpa [Statement.symbols] using (h.rest h₁).trans (h₇.trans (h₈.rest h₉))
  · rw [h₉.current]
    exact hopen

theorem forInitializer_ends (hc : c.Ready) (hn : c.upcoming.length ≤ n) :
    Ends (forInitializer (expression n)) c fun _ c' => ∃ init : Initializer, init.Grammatical ∧
      c.Passes init.symbols c' := by
  unfold forInitializer
  refine accept_ends hc rfl (by decide) (fun c₁ _ h₁ _ => ⟨.none, trivial, h₁⟩) fun _ => ?_
  refine accept_ends hc rfl (by decide) (fun c₁ _ h₁ => ?_) fun _ => ?_
  · have hlength := h₁.length
    exact (varDeclaration_ends h₁ (by omega)).mono fun _ c₂ ⟨name, value, hvalue, h₂⟩ =>
      ⟨.var name value, hvalue, h₂⟩
  · refine (expression_ends hc hn).bind fun _ c₁ ⟨e, he, h₁⟩ => ?_
    refine (consume_ends h₁.ready rfl (by decide)).bind fun _ c₂ h₂ => ?_
    exact (still_ends _ h₂.ready).mono fun _ c₃ h₃ => ⟨.expression e, he, h₁.trans (h₂.rest h₃)⟩

theorem forCondition_ends (hc : c.Ready) (hn : c.upcoming.length ≤ n) :
    Ends (forCondition (expression n)) c fun _ c' => ∃ condition, Expression.OptionGrammatical condition ∧
      c.Passes (Expression.optionSymbols condition ++ [TokenKind.semicolon.symbol]) c' := by
  unfold forCondition
  refine accept_ends hc rfl (by decide) (fun c₁ _ h₁ _ => ⟨none, trivial, h₁⟩) fun _ => ?_
  refine (expression_ends hc hn).bind fun _ c₁ ⟨e, he, h₁⟩ => ?_
  refine (consume_ends h₁.ready rfl (by decide)).bind fun _ c₂ h₂ => ?_
  exact (still_ends _ h₂.ready).mono fun _ c₃ h₃ => ⟨some e, he, h₁.trans (h₂.rest h₃)⟩

theorem forIncrement_ends {start : Nat} (hc : c.Ready) (hn : c.upcoming.length ≤ n) :
    Ends (forIncrement (expression n) start) c fun _ c' => ∃ increment,
      Expression.OptionGrammatical increment ∧
      c.Passes (Expression.optionSymbols increment ++ [TokenKind.rightParen.symbol]) c' := by
  unfold forIncrement
  refine accept_ends hc rfl (by decide) (fun c₁ _ h₁ _ => ⟨none, trivial, h₁⟩) fun _ => ?_
  refine (still_ends _ hc).bind fun _ c₁ h₁ => (still_ends _ h₁.passes.ready).bind fun _ c₂ h₂ => ?_
  have h₃ := (hc.passes.rest h₁).rest h₂
  have hlength := h₃.length
  rw [List.length_nil] at hlength
  refine (expression_ends h₃.ready (by omega)).bind fun _ c₄ ⟨e, he, h₄⟩ => ?_
  refine (still_ends _ h₄.ready).bind fun _ c₅ h₅ => ?_
  refine (consume_ends h₅.passes.ready rfl (by decide)).bind fun _ c₆ h₆ => ?_
  exact (still_ends _ h₆.ready).mono fun _ c₇ h₇ =>
    ⟨some e, he, h₃.trans ((h₄.rest h₅).trans (h₆.rest h₇))⟩

theorem forStatement_ends (hstmt : StatementsDerive n) (h : c₀.Passes [TokenKind.kwFor.symbol] c)
    (hn : 2 * c.upcoming.length ≤ n) :
    Ends (forStatement (expression n) (statement n)) c fun _ c' => ∃ s : Statement, s.Grammatical ∧
      c₀.Passes s.symbols c' ∧ (s.isOpen = true → c'.current.kind ≠ .kwElse) := by
  have := orderly_forEnd
  unfold forStatement
  dsimp only
  refine (still_ends _ h.ready).bind fun _ c₁ h₁ => ?_
  refine (consume_ends h₁.passes.ready rfl (by decide)).bind fun _ c₂ h₂ => ?_
  have hlength₂ := (h₁.passes.trans h₂).length
  refine (forInitializer_ends h₂.ready (by omega)).bind fun _ c₃ hinit => ?_
  obtain ⟨init, hinit, h₃⟩ := hinit
  have hlength₃ := h₃.length
  refine (still_ends _ h₃.ready).bind fun _ c₄ h₄ => ?_
  have hlength₄ := h₄.passes.length
  rw [List.length_nil] at hlength₄
  refine (forCondition_ends h₄.passes.ready (by omega)).bind fun leave c₅ hcondition => ?_
  obtain ⟨condition, hcondition, h₅⟩ := hcondition
  have hlength₅ := h₅.length
  refine (forIncrement_ends h₅.ready (by omega)).bind fun _ c₆ hincrement => ?_
  obtain ⟨increment, hincrement, h₆⟩ := hincrement
  have hlength₆ := h₆.length
  simp only [List.length_append, List.length_singleton, List.length_nil] at hlength₂ hlength₅ hlength₆
  refine (hstmt h₆.ready (by omega)).bind fun _ c₇ hbody => ?_
  obtain ⟨body, hbody, h₇, hopen⟩ := hbody
  refine (still_ends _ h₇.ready).bind fun _ c₈ h₈ => ?_
  have hend : ∀ c₉ : Compiler, c₈.Rests c₉ → ∃ s : Statement, s.Grammatical ∧
      c₀.Passes s.symbols c₉ ∧ (s.isOpen = true → c₉.current.kind ≠ .kwElse) := by
    intro c₉ h₉
    refine ⟨.forLoop init condition increment body, ⟨hinit, hcondition, hincrement, hbody⟩, ?_, ?_⟩
    · have h₁₀ := (h.rest h₁).trans (h₂.trans ((h₃.rest h₄).trans (h₅.trans (h₆.trans ((h₇.rest h₈).rest h₉)))))
      simpa [Statement.symbols] using h₁₀
    · rw [h₉.current, h₈.current]
      exact hopen
  cases leave with
  | none => exact (still_ends endScope h₈.passes.ready).mono fun _ => hend
  | some onFalse =>
    exact (still_ends (do patchJump onFalse; let _ ← emit .pop; endScope) h₈.passes.ready).mono fun _ => hend

theorem returnStatement_ends (h : c₀.Passes [TokenKind.kwReturn.symbol] c) (hn : c.upcoming.length ≤ n) :
    Ends (returnStatement (expression n)) c fun _ c' => ∃ s : Statement, s.Grammatical ∧
      c₀.Passes s.symbols c' ∧ (s.isOpen = true → c'.current.kind ≠ .kwElse) := by
  rw [returnStatement_eq]
  refine (still_ends _ h.ready).bind fun _ c₁ h₁ => (still_ends _ h₁.passes.ready).bind fun _ c₂ h₂ => ?_
  have h₃ := (h.rest h₁).rest h₂
  have hlength := (h₁.passes.rest h₂).length
  rw [List.length_nil] at hlength
  refine accept_ends h₃.ready rfl (by decide) (fun c₄ _ h₄ => ?_) fun _ => ?_
  · refine (still_ends _ h₄.ready).mono fun _ c₅ h₅ => ⟨.ret none, trivial, ?_, nofun⟩
    simpa [Statement.symbols, Expression.optionSymbols] using h₃.trans (h₄.rest h₅)
  · refine (still_ends _ h₃.ready).bind fun _ c₄ h₄ => (still_ends _ h₄.passes.ready).bind fun _ c₅ h₅ => ?_
    have hlength₅ := (h₄.passes.rest h₅).length
    rw [List.length_nil] at hlength₅
    refine (expression_ends h₅.passes.ready (by omega)).bind fun _ c₆ ⟨e, he, h₆⟩ => ?_
    refine (consume_ends h₆.ready rfl (by decide)).bind fun _ c₇ h₇ => ?_
    refine (still_ends _ h₇.ready).mono fun _ c₈ h₈ => ⟨.ret (some e), he, ?_, nofun⟩
    simpa [Statement.symbols, Expression.optionSymbols] using
      ((h₃.rest h₄).rest h₅).trans (h₆.trans (h₇.rest h₈))

/-- **A statement**, if its parts derive. -/
theorem statementRule_derives (hstmt : StatementsDerive n) (hdecl : DeclarationsDerive n) :
    StatementsDerive (n + 1) := by
  intro c hc hn
  change Ends (statementRule (expression n) (statement n) (declaration n) n) c _
  unfold statementRule
  refine accept_ends hc rfl (by decide) (fun c₁ _ h₁ => ?_) fun _ => ?_
  · have hlength := h₁.length
    refine (expression_ends h₁.ready (by omega)).bind fun _ c₂ ⟨e, he, h₂⟩ => ?_
    refine (consume_ends h₂.ready rfl (by decide)).bind fun _ c₃ h₃ => ?_
    refine (still_ends _ h₃.ready).mono fun _ c₄ h₄ => ⟨.print e, he, ?_, nofun⟩
    simpa [Statement.symbols] using h₁.trans (h₂.trans (h₃.rest h₄))
  refine accept_ends hc rfl (by decide) (fun c₁ _ h₁ => ?_) fun _ => ?_
  · have hlength := h₁.length
    exact forStatement_ends hstmt h₁ (by simp at hlength; omega)
  refine accept_ends hc rfl (by decide) (fun c₁ _ h₁ => ?_) fun _ => ?_
  · have hlength := h₁.length
    exact ifStatement_ends hstmt h₁ (by simp at hlength; omega)
  refine accept_ends hc rfl (by decide) (fun c₁ _ h₁ => ?_) fun _ => ?_
  · have hlength := h₁.length
    exact returnStatement_ends h₁ (by omega)
  refine accept_ends hc rfl (by decide) (fun c₁ _ h₁ => ?_) fun _ => ?_
  · have hlength := h₁.length
    exact whileStatement_ends hstmt h₁ (by simp at hlength; omega)
  refine accept_ends hc rfl (by decide) (fun c₁ _ h₁ => ?_) fun _ => ?_
  · have hlength := h₁.length
    refine (still_ends _ h₁.ready).bind fun _ c₂ h₂ => ?_
    have hlength₂ := h₂.passes.length
    rw [List.length_singleton] at hlength
    rw [List.length_nil] at hlength₂
    refine (block_ends hdecl h₂.passes.ready (by omega)).bind fun _ c₃ ⟨body, hbody, h₃⟩ => ?_
    refine (still_ends _ h₃.ready).mono fun _ c₄ h₄ => ⟨.block body, hbody, ?_, nofun⟩
    simpa [Statement.symbols] using (h₁.rest h₂).trans (h₃.rest h₄)
  · have := c.length_upcoming_pos
    refine (expression_ends hc (by omega)).bind fun _ c₁ ⟨e, he, h₁⟩ => ?_
    refine (consume_ends h₁.ready rfl (by decide)).bind fun _ c₂ h₂ => ?_
    refine (still_ends _ h₂.ready).mono fun _ c₃ h₃ => ⟨.expression e, he, ?_, nofun⟩
    simpa [Statement.symbols] using h₁.trans (h₂.rest h₃)

/-- **A declaration**, if its parts derive. -/
theorem declarationRule_derives (hstmt : StatementsDerive n) (hdecl : DeclarationsDerive n) :
    DeclarationsDerive (n + 1) := by
  intro c hc hn
  rw [declaration_succ]
  have hrule : Ends (do
      if ← accept .kwClass then classDeclaration (declaration n) n
      else if ← accept .kwFun then funDeclaration (declaration n) n
      else if ← accept .kwVar then varDeclaration (expression n)
      else statement n) c fun _ c' => ∃ d : Declaration, d.Grammatical ∧ c.Passes d.symbols c' := by
    refine accept_ends hc rfl (by decide) (fun c₁ _ h₁ => ?_) fun _ => ?_
    · have hlength := h₁.length
      exact classDeclaration_ends hdecl h₁ (by simp at hlength; omega)
    refine accept_ends hc rfl (by decide) (fun c₁ _ h₁ => ?_) fun _ => ?_
    · have hlength := h₁.length
      refine (funDeclaration_ends hdecl h₁.ready (by simp at hlength; omega)).mono
        fun _ c₂ ⟨f, hf, h₂⟩ => ⟨.function f, hf, ?_⟩
      rw [Declaration.symbols]
      exact h₁.trans h₂
    refine accept_ends hc rfl (by decide) (fun c₁ _ h₁ => ?_) fun _ => ?_
    · have hlength := h₁.length
      refine (varDeclaration_ends h₁ (by omega)).mono
        fun _ c₂ ⟨name, value, hvalue, h₂⟩ => ⟨.var name value, hvalue, ?_⟩
      rw [Declaration.symbols]
      exact h₂
    · refine (hstmt hc (by omega)).mono fun _ c₁ ⟨s, hs, h₁, _⟩ => ⟨.statement s, hs, ?_⟩
      rw [Declaration.symbols]
      exact h₁
  refine hrule.bind fun _ c₁ ⟨d, hd, h₁⟩ herr => ?_
  -- Nothing has been reported, so there is nothing to recover from.
  have hnone := (Orderly.precedes (x := (do if (← get).panicking then synchronize n : Compile Unit)) c₁).errors herr
  have hskip : (do if (← get).panicking then synchronize n : Compile Unit) c₁ = ((), c₁) := by
    change (if c₁.panicking = true then synchronize n else pure ()) c₁ = _
    rw [panicking_eq_false h₁.ready.calm hnone]
    rfl
  rw [hskip]
  exact ⟨d, hd, h₁⟩

end Rules

/-- **What the parser reads without an error is a tree.** -/
theorem statement_declaration_derive (n : Nat) : StatementsDerive n ∧ DeclarationsDerive n := by
  induction n with
  | zero =>
    refine ⟨fun {c} _ hn => ?_, fun _ hn => absurd hn (Nat.not_lt_zero _)⟩
    have := c.length_upcoming_pos
    omega
  | succ n ih => exact ⟨statementRule_derives ih.1 ih.2, declarationRule_derives ih.1 ih.2⟩

/-! ## Programs -/

/-- The declarations up to the end of the source. -/
theorem declarations_ends {j : Nat} (hc : c.Ready) (hn : 2 * c.upcoming.length < n)
    (hj : c.upcoming.length ≤ j) :
    Ends (loop (do return !(← accept .eof)) (declaration n) j) c fun _ _ => ∃ program,
      Declaration.ListGrammatical program ∧
      c.upcoming.map Token.symbol = Declaration.listSymbols program ++ [TokenKind.eof.symbol] ∧
      ∀ t ∈ c.upcoming, ∀ reason, t.kind ≠ .error reason := by
  induction j generalizing c with
  | zero =>
    have := c.length_upcoming_pos
    omega
  | succ j ih =>
    by_cases heof : c.current.kind = .eof
    · refine fun _ => ⟨[], trivial, ?_, ?_⟩
      · rw [Compiler.upcoming, if_pos heof, List.map_singleton, Token.symbol_of_kind heof rfl]
        rfl
      · rw [Compiler.upcoming, if_pos heof]
        intro t ht
        obtain rfl := List.mem_singleton.1 ht
        exact hc.notError
    · have haccept : accept .eof c = (false, c) := by
        change (if decide (c.current.kind = .eof) = true then _ else _ : Compile Bool) c = _
        rw [if_neg (by simpa using heof)]
        rfl
      have hcondition : Ends (do return !(← accept .eof)) c fun b c' => b = true ∧ c' = c := by
        unfold Ends
        rw [bind_of haccept]
        exact fun _ => ⟨rfl, rfl⟩
      unfold loop
      refine hcondition.bind fun b c' hb => ?_
      obtain ⟨rfl, rfl⟩ := hb
      refine ((statement_declaration_derive n).2 hc hn).bind fun _ c₁ hderived => ?_
      obtain ⟨d, hd, h₁⟩ := hderived
      have hlength := h₁.length
      have hpos := d.length_symbols_pos
      refine (ih h₁.ready (by omega) (by omega)).mono fun _ _ hmore => ?_
      obtain ⟨program, hprogram, hsymbols, herror⟩ := hmore
      obtain ⟨ts, hts, hw, hts'⟩ := h₁.tokens
      refine ⟨d :: program, ⟨hd, hprogram⟩, ?_, fun t ht => ?_⟩
      · rw [hts, List.map_append, hw, hsymbols, Declaration.listSymbols, List.append_assoc]
      · rw [hts] at ht
        exact (List.mem_append.1 ht).elim (hts' t) (herror t)

/-- The tokens of a source end with `eof`. -/
theorem Source.terminated_tokens (s : Source) : Terminated s.tokens := by
  obtain ⟨ts, t, htokens, ht, hts⟩ := s.tokens_eq
  rw [htokens]
  clear htokens
  induction ts with
  | nil => exact .eof ht
  | cons u ts ih =>
    obtain ⟨hu, hts⟩ := List.forall_mem_cons.1 hts
    exact .cons hu.1 (ih hts)

theorem script_ends (source : String) (heap : Heap) (roots : Thunk (List Handle)) :
    Ends (script (Compiler.fuel (Compiler.start source heap roots).rest.length))
      (Compiler.start source heap roots) fun _ _ => ∃ program, Parses source program := by
  have hterminated := (Source.ofString source).terminated_tokens
  have hadvance : Ends advance (Compiler.start source heap roots) fun _ c =>
      c.Ready ∧ c.upcoming = (Source.ofString source).tokens := by
    intro herr
    have hcalm : (Compiler.start source heap roots).Calm := fun h => absurd h Bool.false_ne_true
    obtain ⟨hupcoming, -, herror⟩ := pull_eq hterminated hcalm herr
    refine ⟨⟨calm_pull _ hcalm, ?_, herror⟩, hupcoming⟩
    exact hupcoming ▸ hterminated
  refine hadvance.bind fun _ c hfirst => ?_
  obtain ⟨hc, hupcoming⟩ := hfirst
  have hlength : (Compiler.start source heap roots).rest.length = c.upcoming.length := by
    rw [hupcoming]
    rfl
  rw [hlength, Compiler.fuel]
  refine (declarations_ends hc (by omega) (by omega)).mono fun _ _ hderived => ?_
  obtain ⟨program, hprogram, hsymbols, herror⟩ := hderived
  refine ⟨program, ?_⟩
  rw [hupcoming] at hsymbols herror
  exact ⟨herror, hsymbols, hprogram⟩

/-- **What compiles is a program.** -/
theorem exists_parses {source : String} {heap heap' : Heap} {roots : Thunk (List Handle)} {h : Handle}
    (hok : compile source heap roots = (.ok h, heap')) : ∃ program, Parses source program := by
  have hends : Ends (parse (Compiler.fuel (Compiler.start source heap roots).rest.length))
      (Compiler.start source heap roots) fun _ _ => ∃ program, Parses source program :=
    (script_ends source heap roots).bind fun _ _ hprogram _ => hprogram
  rw [compile_eq] at hok
  unfold Ends at hends
  dsimp only at hok
  generalize parse _ _ = parsed at hends hok
  obtain ⟨d, c⟩ := parsed
  dsimp only at hok
  split at hok
  · rename_i hempty
    exact hends (Array.isEmpty_iff.1 hempty)
  · simp at hok

end LoxMachine
