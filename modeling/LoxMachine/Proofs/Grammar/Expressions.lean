import LoxMachine.Proofs.Grammar.Reading

/-!
# Parsing the symbols of an expression

* `Expression.Bars e kind`: a token of the kind cannot go on with the expression from inside.
* `parsePrecedence_run`: where the symbols of an expression come next, and what follows does not
  belong to it, the parser does what compiling along the tree does.
-/

namespace LoxMachine

open Compile

variable {c : Compiler} {s : Symbol} {more : List Symbol}

/-! ## Single tokens -/

theorem Token.text_of_symbol {t : Token} {kind : TokenKind} {text : String} (h : t.symbol = ⟨kind, text⟩)
    (hk : kind.isSpelled = true) : t.text = text := by
  simp only [symbol, Symbol.mk.injEq] at h
  obtain ⟨rfl, h⟩ := h
  rwa [if_pos hk] at h

namespace Compiler

/-- After the next token. -/
structure Passed (c c' : Compiler) (s : Symbol) (more : List Symbol) : Prop where
  expects : c'.Expects more
  symbol : c'.previous.symbol = s
  proper : c'.previous.Proper

theorem Expects.advance (h : c.Expects (s :: more)) (hmore : more ≠ []) :
    c.Passed (Compile.advance c).2 s more := by
  obtain ⟨t, u, us, hu⟩ : ∃ t u us, c.upcoming = t :: u :: us := by
    have hlength := congrArg List.length h.symbols_eq
    have hpos := List.length_pos_iff.2 hmore
    rw [List.length_map, List.length_cons] at hlength
    rcases hu : c.upcoming with _ | ⟨t, _ | ⟨u, us⟩⟩
    · simp [hu] at hlength
    · rw [hu, List.length_singleton] at hlength
      omega
    · exact ⟨t, u, us, rfl⟩
  obtain ⟨-, hprevious, -⟩ := upcoming_advance hu h.stream
  have hsymbols := h.symbols_eq
  rw [hu] at hsymbols
  refine ⟨Reads.expects (w := [s]) inferInstance h hmore, ?_, ?_⟩
  · rw [hprevious]
    exact (List.cons.inj hsymbols).1
  · have hstream := h.stream
    rw [hu] at hstream
    rw [hprevious]
    cases hstream with
    | cons _ proper _ => exact proper

theorem Passed.kind {c' : Compiler} (h : c.Passed c' s more) : c'.previous.kind = s.kind := by
  rw [← h.symbol]
  rfl

theorem Passed.lexeme {c' : Compiler} {kind : TokenKind} {text : String}
    (h : c.Passed c' ⟨kind, text⟩ more) (hk : kind.isSpelled = true) : Compile.lexeme c' = (text, c') :=
  congrArg (·, c') (Token.text_of_symbol h.symbol hk)

end Compiler

namespace Compile

variable {α β : Type}

/-- Two sequences of actions that do the same one after the other. -/
theorem bind_congr {x y : Compile α} {f g : α → Compile β} (hx : x c = y c)
    (hf : f (y c).1 (y c).2 = g (y c).1 (y c).2) : (x >>= f) c = (y >>= g) c := by
  change f (x c).1 (x c).2 = _
  rw [hx]
  exact hf

theorem advance_bind (f : Unit → Compile β) : (advance >>= f) c = f () (advance c).2 := rfl

/-- One side follows the other while symbols are read. -/
theorem read_congr {x y : Compile α} {f g : α → Compile β} {symbols : List Symbol}
    (hy : Reads y symbols.length) (h : c.Expects (symbols ++ more)) (hmore : more ≠ [])
    (hx : x c = y c) (hf : ∀ a c', c'.Expects more → f a c' = g a c') : (x >>= f) c = (y >>= g) c :=
  bind_congr hx (hf _ _ (hy.expects h hmore))

/-- Both sides do the same without reading. -/
theorem still_congr {x : Compile α} {f g : α → Compile β} {symbols : List Symbol} [hx : Still x]
    (h : c.Expects symbols) (hf : ∀ a c', c'.Expects symbols → f a c' = g a c') :
    (x >>= f) c = (x >>= g) c :=
  bind_congr rfl (hf _ _ (hx.expects h))

/-- Both sides read a token. -/
theorem eat_congr {x : Compile Unit} {f g : Unit → Compile β} (h : c.Expects (s :: more))
    (hmore : more ≠ []) (hx : x c = advance c)
    (hf : ∀ c', c.Passed c' s more → f () c' = g () c') : (x >>= f) c = (advance >>= g) c :=
  bind_congr hx (hf _ (h.advance hmore))

theorem consume_eq {kind : TokenKind} {e : Expectation} (h : c.Expects (s :: more)) (hk : s.kind = kind) :
    consume kind e c = advance c := by
  change (if decide (c.current.kind = kind) = true then advance else _ : Compile Unit) c = _
  rw [h.kind, hk, if_pos (by simp)]

theorem check_eq (kind : TokenKind) (h : c.Expects (s :: more)) : check kind c = (decide (s.kind = kind), c) := by
  rw [← h.kind]
  rfl

theorem accept_eq (kind : TokenKind) (h : c.Expects (s :: more)) (hk : s.kind = kind) :
    accept kind c = (true, (advance c).2) := by
  change (if decide (c.current.kind = kind) = true then _ else _ : Compile Bool) c = _
  rw [h.kind, hk, if_pos (by simp)]
  rfl

theorem accept_eq_false (kind : TokenKind) (h : c.Expects (s :: more)) (hk : s.kind ≠ kind) :
    accept kind c = (false, c) := by
  change (if decide (c.current.kind = kind) = true then _ else _ : Compile Bool) c = _
  rw [h.kind, if_neg (by simpa using hk)]
  rfl

end Compile

/-! ## Expressions -/

namespace Precedence

theorem le_iff {p q : Precedence} : p ≤ q ↔ p.rank ≤ q.rank := Iff.rfl

/-- The precedences that operands are parsed with. -/
def OfOperand (p : Precedence) : Prop := .assignment ≤ p ∧ p ≤ .unary

protected theorem trans {p q r : Precedence} (hpq : p ≤ q) (hqr : q ≤ r) : p ≤ r := Nat.le_trans hpq hqr

theorem ne_assignment {p q : Precedence} (hp : .or ≤ p) (hpq : p ≤ q) : q ≠ .assignment := by
  rintro rfl
  exact absurd (Precedence.trans hp hpq) (by decide)

end Precedence

namespace BinaryOperator

theorem ofToken_kind (operator : BinaryOperator) :
    Precedence.ofToken operator.kind = operator.precedence := by
  cases operator <;> rfl

theorem operations_kind (operator : BinaryOperator) :
    binaryOperations operator.kind = operator.opcodes := by
  cases operator <;> rfl

theorem rank_next (operator : BinaryOperator) :
    operator.precedence.next.rank = operator.precedence.rank + 1 ∧
      4 ≤ operator.precedence.rank ∧ operator.precedence.rank ≤ 7 := by
  cases operator <;> decide

end BinaryOperator

namespace Expression

/-- Whether an expression can start with the kind of token. -/
def starts : TokenKind → Bool
  | .leftParen | .minus | .bang | .number | .string | .kwNil | .kwTrue | .kwFalse | .identifier
  | .kwThis | .kwSuper => true
  | _ => false

theorem symbols_eq_cons : ∀ e : Expression, ∃ s ss, e.symbols = s :: ss ∧ starts s.kind = true
  | nil | number _ | string _ | read _ | this | grouping _ | superProperty _ | superInvoke _ _
  | assign _ _ => by
    unfold symbols
    exact ⟨_, _, rfl, rfl⟩
  | bool value => by
    cases value <;> exact ⟨_, _, rfl, rfl⟩
  | unary operator e => by
    cases operator <;> exact ⟨_, _, by rw [symbols], rfl⟩
  | call e _ | property e _ | invoke e _ _ | binary _ e _ | and e _ | or e _ | setProperty e _ _ => by
    obtain ⟨s, ss, h, hs⟩ := symbols_eq_cons e
    exact ⟨s, _, by rw [symbols, h, List.cons_append], hs⟩

theorem length_le_moreSymbols (args : List Expression) : args.length ≤ (moreSymbols args).length := by
  induction args with
  | nil => exact Nat.zero_le _
  | cons e args ih =>
    rw [moreSymbols, List.length_cons, List.length_cons, List.length_append]
    omega

/-- A token of the kind cannot go on with the expression from inside. -/
def Bars : Expression → TokenKind → Prop
  | assign .., kind | setProperty .., kind => Precedence.ofToken kind = .none
  | or .., kind => ¬.or ≤ Precedence.ofToken kind
  | and .., kind => ¬.and ≤ Precedence.ofToken kind
  | binary operator _ _, kind => ¬operator.precedence.next ≤ Precedence.ofToken kind
  | unary .., kind => ¬.unary ≤ Precedence.ofToken kind
  | property .., kind | superProperty .., kind => kind ≠ .leftParen
  | _, _ => True

/-- How many operators, calls and properties follow the first operand. -/
def links : Expression → Nat
  | call e _ | property e _ | invoke e _ _ | binary _ e _ | and e _ | or e _ | setProperty e _ _ =>
    e.links + 1
  | _ => 0

theorem links_lt : ∀ e : Expression, e.links < e.symbols.length
  | nil | bool _ | number _ | string _ | read _ | this | grouping _ | superProperty _
  | superInvoke _ _ | unary _ _ | assign _ _ => by simp [links, symbols]
  | call e _ | property e _ | invoke e _ _ | binary _ e _ | and e _ | or e _ | setProperty e _ _ => by
    have := links_lt e
    simp [links, symbols]
    omega

/-- What does not continue an operand cannot go on with it from inside. -/
theorem bars_of_not_le {e : Expression} {p : Precedence} {kind : TokenKind} (hp : p.OfOperand)
    (he : p ≤ e.precedence) (hkind : ¬p ≤ Precedence.ofToken kind) : e.Bars kind := by
  obtain ⟨hlow, hhigh⟩ := hp
  rw [Precedence.le_iff] at *
  have hparen : kind = .leftParen → (Precedence.ofToken kind).rank = 9 := by
    rintro rfl
    rfl
  have hnone : (Precedence.ofToken kind).rank = 0 → Precedence.ofToken kind = .none := by
    cases Precedence.ofToken kind <;> simp [Precedence.rank]
  cases e with
  | binary operator =>
    have := operator.rank_next
    simp only [precedence, Bars, Precedence.le_iff] at *
    omega
  | _ => simp only [precedence, Bars, Precedence.le_iff, Precedence.rank] at * <;> grind

/-- A token that binds at most as tightly as an expression holds together does not go on with it from
inside. -/
theorem bars_of_le {e : Expression} {kind : TokenKind} (hkind : .or ≤ Precedence.ofToken kind)
    (he : Precedence.ofToken kind ≤ e.precedence)
    (hright : Precedence.ofToken kind ≤ .and → ¬e.precedence ≤ Precedence.ofToken kind)
    (haccess : kind = .leftParen → e.isAccess = false) : e.Bars kind := by
  have hunary : (Precedence.ofToken kind).rank ≠ 8 := by
    cases kind <;> simp [Precedence.ofToken, Precedence.rank]
  simp only [Precedence.le_iff] at *
  cases e with
  | binary operator =>
    have := operator.rank_next
    simp only [precedence, Bars, Precedence.le_iff] at *
    omega
  | property | superProperty =>
    intro h
    exact absurd (haccess h) (by simp [isAccess])
  | assign | setProperty | or | and | unary =>
    simp only [precedence, Bars, Precedence.le_iff] at *
    generalize (Precedence.ofToken kind).rank = q at *
    simp only [Precedence.rank] at *
    omega
  | _ => trivial

end Expression

/-! ## The rules -/

/-- The parser of operands does what compiling along the tree does, for trees that are not too long. -/
def Follows (operand : Precedence → Compile Unit) (n : Nat) : Prop :=
  ∀ {e : Expression} {p : Precedence} {c : Compiler} {s : Symbol} {more : List Symbol},
    p.OfOperand → e.Grammatical → p ≤ e.precedence → e.symbols.length ≤ n →
    c.Expects (e.symbols ++ s :: more) → ¬p ≤ Precedence.ofToken s.kind → s.kind ≠ .equal →
    operand p c = e.run c

theorem argumentsFrom_succ (operand : Precedence → Compile Unit) (j count : Nat) :
    argumentsFrom operand (j + 1) count = (do
      operand .assignment
      errorIf (count = maxArity) .tooManyArguments
      if ← accept .comma then argumentsFrom operand j (count + 1) else return count + 1) := by
  unfold errorIf
  by_cases hcount : count = maxArity
  · simp only [argumentsFrom, hcount, if_true]
  · simp only [argumentsFrom, hcount, if_false, pure_bind]

/-- `super`, with its first check apart. -/
theorem super_eq (operand : Precedence → Compile Unit) (n : Nat) :
    Compile.super operand n = (do
      Expression.checkSuper
      consume .dot .dotAfterSuper
      consume .identifier .superclassMethodName
      let name ← nameConstant (← lexeme)
      readVariable "this"
      if ← accept .leftParen then
        let count ← arguments operand n
        readVariable "super"
        emitWith .superInvoke name
        emitByte count
      else
        readVariable "super"
        emitWith .getSuper name) := by
  unfold Compile.super Expression.checkSuper
  rw [bind_assoc]
  refine congrArg (get >>= ·) (funext fun c => ?_)
  cases c.classes with
  | nil => simp only
  | cons scope scopes =>
    obtain ⟨_ | _⟩ := scope <;> simp only [Bool.not_false, Bool.not_true, if_true, Bool.false_eq_true,
      if_false, pure_bind]

section Rules

variable {operand : Precedence → Compile Unit} {n : Nat} (hoperand : Follows operand n)

include hoperand

open Expression

/-- An expression that a token without precedence ends. -/
theorem Follows.whole {e : Expression} (he : e.Grammatical) (hn : e.symbols.length ≤ n)
    (h : c.Expects (e.symbols ++ s :: more)) (hs : Precedence.ofToken s.kind = .none)
    (hne : s.kind ≠ .equal) : operand .assignment c = e.run c := by
  refine hoperand ⟨by decide, by decide⟩ he ?_ hn h (by rw [hs]; decide) hne
  rw [Precedence.le_iff]
  cases e with
  | binary operator =>
    have := operator.rank_next
    change 1 ≤ operator.precedence.rank
    omega
  | _ => simp [precedence, Precedence.rank]

theorem argumentsFrom_run {e : Expression} {args : List Expression} {count j : Nat}
    (he : e.Grammatical) (hargs : ListGrammatical args)
    (hn : (e.symbols ++ moreSymbols args).length ≤ n) (hj : args.length < j)
    (h : c.Expects (e.symbols ++ (moreSymbols args ++ TokenKind.rightParen.symbol :: more))) :
    argumentsFrom operand j count c = (do
      e.run
      errorIf (count = maxArity) .tooManyArguments
      runMore (count + 1) args
      return count + 1 + args.length : Compile Nat) c := by
  rw [List.length_append] at hn
  induction args generalizing e count j c with
  | nil =>
    obtain ⟨j, rfl⟩ : ∃ i, j = i + 1 := ⟨j - 1, by omega⟩
    rw [argumentsFrom_succ]
    refine read_congr (reads_run e) h (by simp) (hoperand.whole he (by omega) h rfl (by decide)) fun _ c₁ h₁ => ?_
    refine still_congr h₁ fun _ c₂ h₂ => ?_
    rw [bind_of (accept_eq_false .comma h₂ (by decide))]
    rfl
  | cons e' args ih =>
    obtain ⟨j, rfl⟩ : ∃ i, j = i + 1 := ⟨j - 1, by omega⟩
    rw [moreSymbols, List.cons_append, List.append_assoc] at h
    rw [moreSymbols, List.length_cons, List.length_append] at hn
    rw [argumentsFrom_succ]
    refine read_congr (reads_run e) h (by simp) (hoperand.whole he (by omega) h rfl (by decide)) fun _ c₁ h₁ => ?_
    refine still_congr h₁ fun _ c₂ h₂ => ?_
    rw [bind_of (accept_eq .comma h₂ rfl), if_pos rfl]
    have h₃ : (advance c₂).2.Expects
        (e'.symbols ++ (moreSymbols args ++ TokenKind.rightParen.symbol :: more)) :=
      (h₂.advance (by simp)).expects
    rw [ih hargs.1 hargs.2 (by omega) (by simp at hj; omega) h₃]
    rw [runMore, List.length_cons, show count + 1 + (args.length + 1) = count + 1 + 1 + args.length by omega]
    rfl

/-- **Arguments** and the parenthesis after them. -/
theorem arguments_run {args : List Expression} (hargs : ListGrammatical args)
    (hn : (listSymbols args).length ≤ n) (hmore : more ≠ [])
    (h : c.Expects (listSymbols args ++ TokenKind.rightParen.symbol :: more)) :
    arguments operand n c = (do
      runArguments args
      advance
      return argumentCount args : Compile UInt8) c := by
  unfold arguments
  cases args with
  | nil =>
    rw [bind_of (check_eq .rightParen h), if_pos (by decide)]
    change (consume .rightParen _ >>= fun _ => pure (argumentCount [])) c =
      (advance >>= fun _ => pure (argumentCount [])) c
    exact eat_congr h hmore (consume_eq h rfl) fun _ _ => rfl
  | cons e args =>
    obtain ⟨s, ss, hs, hstarts⟩ := e.symbols_eq_cons
    have hcheck : check .rightParen c = (false, c) := by
      rw [listSymbols, hs] at h
      rw [check_eq .rightParen h, decide_eq_false]
      rintro hk
      rw [hk] at hstarts
      cases hstarts
    rw [listSymbols, List.length_append] at hn
    have hlength := length_le_moreSymbols args
    have hpos := e.length_symbols_pos
    have hfrom : argumentsFrom operand n 0 c = (1 + args.length, (runArguments (e :: args) c).2) := by
      rw [listSymbols, List.append_assoc] at h
      rw [argumentsFrom_run hoperand hargs.1 hargs.2 (by rwa [List.length_append]) (by omega) h,
        runArguments, errorIf, if_neg (by decide), Nat.zero_add]
      rfl
    have h₁ := (reads_runArguments (e :: args)).expects h (by simp)
    rw [bind_of hcheck, if_neg (by decide), bind_of hfrom]
    change _ = (advance >>= fun _ => pure (argumentCount (e :: args))) _
    refine eat_congr h₁ hmore (consume_eq h₁ rfl) fun _ _ => ?_
    rw [argumentCount, List.length_cons, Nat.add_comm]

/-- The token that an expression starts with is read, and its rule applied. -/
def opening (operand : Precedence → Compile Unit) (n : Nat) (canAssign : Bool) : Compile Bool := do
  advance
  startExpression operand n (← get).previous.kind canAssign

/-- The next operator, call or property. -/
def step (operand : Precedence → Compile Unit) (n : Nat) (canAssign : Bool) : Compile Unit := do
  advance
  continueExpression operand n (← get).previous.kind canAssign

omit hoperand in
theorem opening_eq (canAssign : Bool) {c' : Compiler} (h : c.Passed c' s more)
    (hc : (advance c).2 = c') :
    opening operand n canAssign c = startExpression operand n s.kind canAssign c' := by
  subst hc
  rw [← h.kind]
  rfl

omit hoperand in
theorem superProperty_run {name : String}
    (h : c.Expects (TokenKind.dot.symbol :: .name name :: s :: more)) (hs : s.kind ≠ .leftParen) :
    Compile.super operand n c = (do
      checkSuper; advance; advance
      let constant ← nameConstant name
      readVariable "this"
      readVariable "super"
      emitWith .getSuper constant) c := by
  rw [super_eq]
  refine still_congr h fun _ c₁ h₁ => ?_
  refine eat_congr h₁ (by simp) (consume_eq h₁ rfl) fun c₂ h₂ => ?_
  refine eat_congr h₂.expects (by simp) (consume_eq h₂.expects rfl) fun c₃ h₃ => ?_
  rw [bind_of (h₃.lexeme rfl)]
  refine still_congr h₃.expects fun _ c₄ h₄ => still_congr h₄ fun _ c₅ h₅ => ?_
  rw [bind_of (accept_eq_false .leftParen h₅ hs), if_neg (by decide)]

theorem superInvoke_run {name : String} {args : List Expression} (hargs : ListGrammatical args)
    (hn : (listSymbols args).length ≤ n)
    (h : c.Expects (TokenKind.dot.symbol :: .name name :: TokenKind.leftParen.symbol ::
      (listSymbols args ++ TokenKind.rightParen.symbol :: more))) (hmore : more ≠ []) :
    Compile.super operand n c = (do
      checkSuper; advance; advance
      let constant ← nameConstant name
      readVariable "this"
      advance; runArguments args; advance
      readVariable "super"
      emitWith .superInvoke constant
      emitByte (argumentCount args)) c := by
  rw [super_eq]
  refine still_congr h fun _ c₁ h₁ => ?_
  refine eat_congr h₁ (by simp) (consume_eq h₁ rfl) fun c₂ h₂ => ?_
  refine eat_congr h₂.expects (by simp) (consume_eq h₂.expects rfl) fun c₃ h₃ => ?_
  rw [bind_of (h₃.lexeme rfl)]
  refine still_congr h₃.expects fun _ c₄ h₄ => still_congr h₄ fun _ c₅ h₅ => ?_
  rw [bind_of (accept_eq .leftParen h₅ rfl), if_pos rfl]
  exact bind_congr (arguments_run hoperand hargs hn hmore (h₅.advance (by simp)).expects) rfl

/-- **The first operand of an expression.** -/
theorem opening_run {e : Expression} {canAssign : Bool} (he : e.Grammatical) (hlinks : e.links = 0)
    (hassign : e.precedence = .assignment → canAssign = true) (hn : e.symbols.length ≤ n + 1)
    (h : c.Expects (e.symbols ++ s :: more)) (hbars : e.Bars s.kind) (hne : s.kind ≠ .equal) :
    opening operand n canAssign c = (true, (e.run c).2) := by
  cases e with
  | nil =>
    rw [symbols, List.singleton_append] at h
    rw [opening_eq canAssign (h.advance (by simp)) rfl]
    rfl
  | bool value =>
    rw [symbols, List.singleton_append] at h
    rw [opening_eq canAssign (h.advance (by simp)) rfl]
    cases value <;> rfl
  | number literal =>
    rw [symbols, List.singleton_append] at h
    have hp := h.advance (by simp)
    rw [opening_eq canAssign hp rfl]
    have hnumber : Compile.number (advance c).2 = (number literal).run c := by
      unfold Compile.number
      rw [bind_of (hp.lexeme rfl)]
      rfl
    change (true, (Compile.number (advance c).2).2) = _
    rw [hnumber]
  | string literal =>
    rw [symbols, List.singleton_append] at h
    have hp := h.advance (by simp)
    rw [opening_eq canAssign hp rfl]
    have hstring : Compile.string (advance c).2 = (string literal).run c := by
      unfold Compile.string
      rw [bind_of (hp.lexeme rfl)]
      rfl
    change (true, (Compile.string (advance c).2).2) = _
    rw [hstring]
  | read name =>
    rw [symbols, List.singleton_append] at h
    have hp := h.advance (by simp)
    rw [opening_eq canAssign hp rfl]
    have hname : Compile.name operand canAssign (advance c).2 = (read name).run c := by
      unfold Compile.name
      rw [bind_of (hp.lexeme rfl)]
      change _ = (access name >>= fun a => emitWith a.getter a.operand) (advance c).2
      refine still_congr hp.expects fun a c₁ h₁ => ?_
      cases canAssign with
      | false => rfl
      | true =>
        rw [bind_of (check_eq .equal h₁)]
        simp [hne]
    change (true, (Compile.name operand canAssign (advance c).2).2) = _
    rw [hname]
  | this =>
    rw [symbols, List.singleton_append] at h
    have hp := h.advance (by simp)
    rw [opening_eq canAssign hp rfl]
    have hlexeme : lexeme (advance c).2 = ("this", (advance c).2) :=
      congrArg (·, (advance c).2) (hp.proper.this hp.kind)
    have hthis : Compile.this (advance c).2 = Expression.this.run c := by
      change (if (advance c).2.classes.isEmpty = true then error .thisOutsideClass
        else lexeme >>= readVariable) (advance c).2 = (if (advance c).2.classes.isEmpty = true then
          error .thisOutsideClass else readVariable "this") (advance c).2
      by_cases hempty : (advance c).2.classes.isEmpty = true
      · rw [if_pos hempty, if_pos hempty]
      · rw [if_neg hempty, if_neg hempty, bind_of hlexeme]
    change (true, (Compile.this (advance c).2).2) = _
    rw [hthis]
  | assign name value =>
    obtain rfl := hassign rfl
    rw [symbols, List.cons_append, List.cons_append] at h
    have hp := h.advance (by simp)
    rw [opening_eq true hp rfl]
    have hname : Compile.name operand true (advance c).2 = (assign name value).run c := by
      unfold Compile.name
      rw [bind_of (hp.lexeme rfl)]
      change _ = (access name >>= fun a => advance >>= fun _ => value.run >>= fun _ =>
        emitWith a.setter a.operand) (advance c).2
      refine still_congr hp.expects fun a c₁ h₁ => ?_
      rw [bind_of (check_eq .equal h₁), if_pos (by decide)]
      refine eat_congr h₁ (by simp) rfl fun c₂ h₂ => ?_
      refine bind_congr (hoperand.whole he ?_ h₂.expects hbars hne) rfl
      rw [symbols, List.length_cons, List.length_cons] at hn
      omega
    change (true, (Compile.name operand true (advance c).2).2) = _
    rw [hname]
  | grouping e =>
    rw [symbols, List.cons_append, List.append_assoc] at h
    have hp := h.advance (by simp)
    rw [opening_eq canAssign hp rfl]
    have hgrouping : Compile.grouping operand (advance c).2 = (grouping e).run c := by
      unfold Compile.grouping
      change _ = (e.run >>= fun _ => advance) (advance c).2
      rw [symbols, List.length_cons, List.length_append] at hn
      refine read_congr (reads_run e) hp.expects (by simp)
        (hoperand.whole he (by omega) hp.expects rfl (by decide)) fun _ c₁ h₁ => ?_
      exact consume_eq h₁ rfl
    change (true, (Compile.grouping operand (advance c).2).2) = _
    rw [hgrouping]
  | unary operator e =>
    rw [symbols, List.cons_append] at h
    have hp := h.advance (by simp)
    rw [opening_eq canAssign hp rfl]
    have hunary : Compile.unary operand operator.kind (advance c).2 = (unary operator e).run c := by
      unfold Compile.unary
      change _ = (e.run >>= fun _ => emit operator.opcode) (advance c).2
      rw [symbols, List.length_cons] at hn
      refine bind_congr (hoperand ⟨by decide, by decide⟩ he.2 he.1 (by omega) hp.expects hbars hne) ?_
      cases operator <;> rfl
    have hstart : startExpression operand n operator.kind canAssign (advance c).2 =
        (true, (Compile.unary operand operator.kind (advance c).2).2) := by
      cases operator <;> rfl
    exact hstart.trans (by rw [hunary])
  | superProperty name =>
    rw [symbols] at h
    have hp := h.advance (by simp)
    rw [opening_eq canAssign hp rfl]
    change (true, (Compile.super operand n (advance c).2).2) = _
    rw [superProperty_run hp.expects hbars, run, advance_bind]
  | superInvoke name args =>
    rw [symbols, List.cons_append, List.cons_append, List.cons_append, List.cons_append,
      List.append_assoc] at h
    have hp := h.advance (by simp)
    rw [opening_eq canAssign hp rfl]
    simp only [symbols, List.length_cons, List.length_append] at hn
    change (true, (Compile.super operand n (advance c).2).2) = _
    rw [superInvoke_run hoperand he (by omega) hp.expects (by simp), run, advance_bind]
  | _ => simp [links] at hlinks

omit hoperand in
theorem step_eq (canAssign : Bool) {c' : Compiler} (h : c.Passed c' s more)
    (hc : (advance c).2 = c') :
    step operand n canAssign c = continueExpression operand n s.kind canAssign c' := by
  subst hc
  rw [← h.kind]
  rfl

/-! ### Operators -/

theorem binary_run {operator : BinaryOperator} {right : Expression} {canAssign : Bool}
    (hp : operator.precedence.next ≤ right.precedence) (hright : right.Grammatical)
    (hn : right.symbols.length ≤ n)
    (h : c.Expects (operator.kind.symbol :: (right.symbols ++ s :: more)))
    (hs : ¬operator.precedence.next ≤ Precedence.ofToken s.kind) (hne : s.kind ≠ .equal) :
    step operand n canAssign c = (do
      advance
      right.run
      operator.opcodes.forM emit) c := by
  have hpassed := h.advance (by simp)
  have hkind : continueExpression operand n operator.kind canAssign =
      Compile.binary operand operator.kind := by
    cases operator <;> rfl
  have hoper : operator.precedence.next.OfOperand := by
    cases operator <;> exact ⟨by decide, by decide⟩
  rw [step_eq canAssign hpassed rfl, advance_bind, TokenKind.symbol, hkind, Compile.binary,
    operator.ofToken_kind, operator.operations_kind]
  exact bind_congr (hoperand hoper hright hp hn hpassed.expects hs hne) rfl

theorem and_run {right : Expression} {canAssign : Bool} (hp : .and ≤ right.precedence)
    (hright : right.Grammatical) (hn : right.symbols.length ≤ n)
    (h : c.Expects (TokenKind.kwAnd.symbol :: (right.symbols ++ s :: more)))
    (hs : ¬.and ≤ Precedence.ofToken s.kind) (hne : s.kind ≠ .equal) :
    step operand n canAssign c = (do
      advance
      let atEnd ← emitJump .jumpIfFalse
      emit .pop
      right.run
      patchJump atEnd) c := by
  have hpassed := h.advance (by simp)
  rw [step_eq canAssign hpassed rfl, advance_bind]
  change Compile.conjunction operand _ = _
  refine still_congr hpassed.expects fun _ c₁ h₁ => still_congr h₁ fun _ c₂ h₂ => ?_
  exact bind_congr (hoperand ⟨by decide, by decide⟩ hright hp hn h₂ hs hne) rfl

theorem or_run {right : Expression} {canAssign : Bool} (hp : .or ≤ right.precedence)
    (hright : right.Grammatical) (hn : right.symbols.length ≤ n)
    (h : c.Expects (TokenKind.kwOr.symbol :: (right.symbols ++ s :: more)))
    (hs : ¬.or ≤ Precedence.ofToken s.kind) (hne : s.kind ≠ .equal) :
    step operand n canAssign c = (do
      advance
      let onFalse ← emitJump .jumpIfFalse
      let atEnd ← emitJump .jump
      patchJump onFalse
      emit .pop
      right.run
      patchJump atEnd) c := by
  have hpassed := h.advance (by simp)
  rw [step_eq canAssign hpassed rfl, advance_bind]
  change Compile.disjunction operand _ = _
  refine still_congr hpassed.expects fun _ c₁ h₁ => still_congr h₁ fun _ c₂ h₂ => ?_
  refine still_congr h₂ fun _ c₃ h₃ => still_congr h₃ fun _ c₄ h₄ => ?_
  exact bind_congr (hoperand ⟨by decide, by decide⟩ hright hp hn h₄ hs hne) rfl

theorem call_run {args : List Expression} {canAssign : Bool} (hargs : ListGrammatical args)
    (hn : (listSymbols args).length ≤ n) (hmore : more ≠ [])
    (h : c.Expects (TokenKind.leftParen.symbol ::
      (listSymbols args ++ TokenKind.rightParen.symbol :: more))) :
    step operand n canAssign c = (do
      advance; runArguments args; advance
      emitWith .call (argumentCount args)) c := by
  have hpassed := h.advance (by simp)
  rw [step_eq canAssign hpassed rfl, advance_bind]
  change Compile.call operand n _ = _
  exact bind_congr (arguments_run hoperand hargs hn hmore hpassed.expects) rfl

/-! ### Properties -/

omit hoperand in
theorem property_run {name : String} {canAssign : Bool}
    (h : c.Expects (TokenKind.dot.symbol :: .name name :: s :: more)) (hs : s.kind ≠ .leftParen)
    (hne : s.kind ≠ .equal) :
    step operand n canAssign c = (do
      advance; advance
      emitWith .getProperty (← nameConstant name)) c := by
  have hpassed := h.advance (by simp)
  rw [step_eq canAssign hpassed rfl, advance_bind]
  change Compile.property operand n canAssign _ = _
  refine eat_congr hpassed.expects (by simp) (consume_eq hpassed.expects rfl) fun c₁ h₁ => ?_
  rw [bind_of (h₁.lexeme rfl)]
  refine still_congr h₁.expects fun _ c₂ h₂ => ?_
  rw [bind_of (check_eq .equal h₂), decide_eq_false hne, Bool.and_false, if_neg (by decide),
    bind_of (accept_eq_false .leftParen h₂ hs), if_neg (by decide)]

theorem invoke_run {name : String} {args : List Expression} {canAssign : Bool}
    (hargs : ListGrammatical args) (hn : (listSymbols args).length ≤ n) (hmore : more ≠ [])
    (h : c.Expects (TokenKind.dot.symbol :: .name name :: TokenKind.leftParen.symbol ::
      (listSymbols args ++ TokenKind.rightParen.symbol :: more))) :
    step operand n canAssign c = (do
      advance; advance
      let constant ← nameConstant name
      advance; runArguments args; advance
      emitWith .invoke constant
      emitByte (argumentCount args)) c := by
  have hpassed := h.advance (by simp)
  rw [step_eq canAssign hpassed rfl, advance_bind]
  change Compile.property operand n canAssign _ = _
  refine eat_congr hpassed.expects (by simp) (consume_eq hpassed.expects rfl) fun c₁ h₁ => ?_
  rw [bind_of (h₁.lexeme rfl)]
  refine still_congr h₁.expects fun _ c₂ h₂ => ?_
  rw [bind_of (check_eq .equal h₂), decide_eq_false (by decide), Bool.and_false, if_neg (by decide),
    bind_of (accept_eq .leftParen h₂ rfl), if_pos rfl]
  exact bind_congr (arguments_run hoperand hargs hn hmore (h₂.advance (by simp)).expects) rfl

theorem setProperty_run {name : String} {value : Expression} (hvalue : value.Grammatical)
    (hn : value.symbols.length ≤ n)
    (h : c.Expects (TokenKind.dot.symbol :: .name name :: TokenKind.equal.symbol ::
      (value.symbols ++ s :: more)))
    (hs : Precedence.ofToken s.kind = .none) (hne : s.kind ≠ .equal) :
    step operand n true c = (do
      advance; advance
      let constant ← nameConstant name
      advance
      value.run
      emitWith .setProperty constant) c := by
  have hpassed := h.advance (by simp)
  rw [step_eq true hpassed rfl, advance_bind]
  change Compile.property operand n true _ = _
  refine eat_congr hpassed.expects (by simp) (consume_eq hpassed.expects rfl) fun c₁ h₁ => ?_
  rw [bind_of (h₁.lexeme rfl)]
  refine still_congr h₁.expects fun _ c₂ h₂ => ?_
  rw [bind_of (check_eq .equal h₂), if_pos (by decide)]
  refine eat_congr h₂ (by simp) rfl fun c₃ h₃ => ?_
  exact bind_congr (hoperand.whole hvalue hn h₃.expects hs hne) rfl

/-! ### Chains of operators -/

omit hoperand in
/-- Whether the next token goes on with an expression of the precedence. -/
def continues (p : Precedence) : Compile Bool := return p ≤ Precedence.ofToken (← get).current.kind

/-- The parser gets to the end of an expression, from its first operand through all its operators. -/
def Spine (operand : Precedence → Compile Unit) (n : Nat) (canAssign : Bool) (p : Precedence)
    (e : Expression) (c : Compiler) : Prop :=
  (opening operand n canAssign c).1 = true ∧ ∀ m, e.links ≤ m →
    loop (continues p) (step operand n canAssign) m (opening operand n canAssign c).2 =
      loop (continues p) (step operand n canAssign) (m - e.links) (e.run c).2

omit hoperand in
theorem Spine.single {canAssign : Bool} {p : Precedence} {e : Expression}
    (h : opening operand n canAssign c = (true, (e.run c).2)) (hlinks : e.links = 0) :
    Spine operand n canAssign p e c := by
  refine ⟨by rw [h], fun m _ => ?_⟩
  rw [h, hlinks, Nat.sub_zero]

omit hoperand in
theorem Spine.link {canAssign : Bool} {p : Precedence} {left e : Expression}
    (h : Spine operand n canAssign p left c) (hlinks : e.links = left.links + 1)
    (hleft : (left.run c).2.Expects (s :: more)) (hs : p ≤ Precedence.ofToken s.kind)
    (hstep : (step operand n canAssign (left.run c).2).2 = (e.run c).2) :
    Spine operand n canAssign p e c := by
  refine ⟨h.1, fun m hm => ?_⟩
  have hcontinues : continues p (left.run c).2 = (true, (left.run c).2) := by
    change (decide (p ≤ Precedence.ofToken (left.run c).2.current.kind), _) = _
    rw [hleft.kind, decide_eq_true hs]
  obtain ⟨j, hj⟩ : ∃ j, m - left.links = j + 1 := ⟨m - left.links - 1, by omega⟩
  rw [h.2 m (by omega), hj, show m - e.links = j by omega, loop, bind_of hcontinues, if_pos rfl, ← hstep]
  rfl

theorem spine {canAssign : Bool} {p : Precedence} (hp : p.OfOperand) : ∀ {e : Expression} {s : Symbol}
    {more : List Symbol}, e.Grammatical → (e.precedence = .assignment → canAssign = true) →
    p ≤ e.precedence → e.symbols.length ≤ n + 1 → c.Expects (e.symbols ++ s :: more) →
    e.Bars s.kind → s.kind ≠ .equal → Spine operand n canAssign p e c := by
  intro e s more he hassign hpe hn h hbars hne
  cases e with
  | binary operator left right =>
    obtain ⟨hleft, he, hright, he'⟩ := he
    have hrank := operator.rank_next
    have hor : .or ≤ operator.precedence := Precedence.le_iff.2 (by change 2 ≤ _; omega)
    have htoken : Precedence.ofToken operator.kind.symbol.kind = operator.precedence :=
      operator.ofToken_kind
    rw [symbols, List.append_assoc, List.cons_append] at h
    rw [symbols, List.length_append, List.length_cons] at hn
    have hpos := left.length_symbols_pos
    have hafter := (reads_run left).expects h (by simp)
    have hbarsLeft : left.Bars operator.kind.symbol.kind := by
      refine bars_of_le ?_ ?_ ?_ ?_
      · rwa [htoken]
      · rwa [htoken]
      · rw [htoken, Precedence.le_iff]
        intro hand
        exact absurd hand (by change ¬_ ≤ 3; omega)
      · cases operator <;> exact fun hk => absurd hk (by decide)
    refine (spine hp he (absurd · (Precedence.ne_assignment hor hleft)) (Precedence.trans hpe hleft)
      (by omega) h hbarsLeft (by cases operator <;> exact fun hk => absurd hk (by decide))).link rfl hafter
      (by rwa [htoken]) ?_
    rw [run, binary_run hoperand hright he' (by omega) hafter hbars hne]
    exact snd_bind _ _ c
  | and left right =>
    obtain ⟨hleft, he, hright, he'⟩ := he
    rw [symbols, List.append_assoc, List.cons_append] at h
    rw [symbols, List.length_append, List.length_cons] at hn
    have hpos := left.length_symbols_pos
    have hafter := (reads_run left).expects h (by simp)
    have hand : .and ≤ left.precedence := Precedence.trans (by decide) hleft
    refine (spine hp he (absurd · (Precedence.ne_assignment (by decide) hand))
      (Precedence.trans hpe hand) (by omega) h
      (bars_of_le (by decide) hand (fun _ hl => absurd (Precedence.trans hleft hl) (by decide))
        fun hk => absurd hk (by decide)) (fun hk => absurd hk (by decide))).link rfl hafter hpe ?_
    rw [run, and_run hoperand hright he' (by omega) hafter hbars hne]
    exact snd_bind _ _ c
  | or left right =>
    obtain ⟨hleft, he, hright, he'⟩ := he
    rw [symbols, List.append_assoc, List.cons_append] at h
    rw [symbols, List.length_append, List.length_cons] at hn
    have hpos := left.length_symbols_pos
    have hafter := (reads_run left).expects h (by simp)
    have hor : .or ≤ left.precedence := Precedence.trans (by decide) hleft
    refine (spine hp he (absurd · (Precedence.ne_assignment (by decide) hor))
      (Precedence.trans hpe hor) (by omega) h
      (bars_of_le (by decide) hor (fun _ hl => absurd (Precedence.trans hleft hl) (by decide))
        fun hk => absurd hk (by decide)) (fun hk => absurd hk (by decide))).link rfl hafter hpe ?_
    rw [run, or_run hoperand hright he' (by omega) hafter hbars hne]
    exact snd_bind _ _ c
  | call callee args =>
    obtain ⟨hleft, haccess, he, hargs⟩ := he
    rw [symbols, List.append_assoc, List.cons_append, List.append_assoc] at h
    rw [symbols, List.length_append, List.length_cons, List.length_append] at hn
    have hpos := callee.length_symbols_pos
    have hafter := (reads_run callee).expects h (by simp)
    refine (spine hp he (absurd · (Precedence.ne_assignment (by decide) hleft))
      (Precedence.trans hpe hleft) (by omega) h
      (bars_of_le (by decide) hleft (fun hl => absurd hl (by decide)) fun _ => haccess)
      (fun hk => absurd hk (by decide))).link rfl hafter hpe ?_
    rw [run, call_run hoperand hargs (by omega) (by simp) hafter]
    exact snd_bind _ _ c
  | property target name =>
    obtain ⟨hleft, he⟩ := he
    rw [symbols, List.append_assoc] at h
    rw [symbols, List.length_append] at hn
    have hafter := (reads_run target).expects h (by simp)
    refine (spine hp he (absurd · (Precedence.ne_assignment (by decide) hleft))
      (Precedence.trans hpe hleft) (by omega) h
      (bars_of_le (by decide) hleft (fun hl => absurd hl (by decide)) fun hk => absurd hk (by decide))
      (fun hk => absurd hk (by decide))).link rfl hafter hpe ?_
    rw [run, property_run hafter hbars hne]
    exact snd_bind _ _ c
  | invoke target name args =>
    obtain ⟨hleft, he, hargs⟩ := he
    rw [symbols, List.append_assoc, List.cons_append, List.cons_append, List.cons_append,
      List.append_assoc] at h
    simp only [symbols, List.length_append, List.length_cons] at hn
    have hpos := target.length_symbols_pos
    have hafter := (reads_run target).expects h (by simp)
    refine (spine hp he (absurd · (Precedence.ne_assignment (by decide) hleft))
      (Precedence.trans hpe hleft) (by omega) h
      (bars_of_le (by decide) hleft (fun hl => absurd hl (by decide)) fun hk => absurd hk (by decide))
      (fun hk => absurd hk (by decide))).link rfl hafter hpe ?_
    rw [run, invoke_run hoperand hargs (by omega) (by simp) hafter]
    exact snd_bind _ _ c
  | setProperty target name value =>
    obtain rfl := hassign rfl
    obtain ⟨hleft, he, hvalue⟩ := he
    rw [symbols, List.append_assoc, List.cons_append, List.cons_append, List.cons_append] at h
    simp only [symbols, List.length_append, List.length_cons] at hn
    have hpos := target.length_symbols_pos
    have hafter := (reads_run target).expects h (by simp)
    have hcall : p ≤ .call := Precedence.trans hp.2 (by decide)
    refine (spine hp he (fun _ => rfl) (Precedence.trans hcall hleft) (by omega) h
      (bars_of_le (by decide) hleft (fun hl => absurd hl (by decide)) fun hk => absurd hk (by decide))
      (fun hk => absurd hk (by decide))).link rfl hafter hcall ?_
    rw [run, setProperty_run hoperand hvalue (by omega) hafter hbars hne]
    exact snd_bind _ _ c
  | nil | bool _ | number _ | string _ | read _ | this | grouping _ | superProperty _ | superInvoke _ _
  | unary _ _ | assign _ _ => exact .single (opening_run hoperand he rfl hassign hn h hbars hne) rfl

end Rules

theorem parsePrecedence_succ (n : Nat) (p : Precedence) :
    parsePrecedence (n + 1) p = (do
      if ← opening (parsePrecedence n) n (p ≤ Precedence.assignment) then
        loop (continues p) (step (parsePrecedence n) n (p ≤ Precedence.assignment)) n
        if decide (p ≤ Precedence.assignment) && (← check .equal) then
          advance
          error .invalidAssignmentTarget
      else error (.expected .expression)) := by
  simp only [parsePrecedence, opening, bind_assoc]
  rfl

/-- **The parser follows the tree.** -/
theorem parsePrecedence_run (n : Nat) : Follows (parsePrecedence n) n := by
  induction n with
  | zero =>
    intro e p c s more _ _ _ hn
    exact absurd e.length_symbols_pos (by omega)
  | succ n ih =>
    intro e p c s more hp he hpe hn h hs hne
    have hassign : e.precedence = .assignment → decide (p ≤ .assignment) = true := fun hassign =>
      decide_eq_true (hassign ▸ hpe)
    obtain ⟨hopening, hloop⟩ := spine ih hp he hassign hpe hn h (Expression.bars_of_not_le hp hpe hs) hne
    have hafter := (Expression.reads_run e).expects h (List.cons_ne_nil s more)
    have hends : ∀ j, loop (continues p) (step (parsePrecedence n) n (decide (p ≤ .assignment))) j
        (e.run c).2 = ((), (e.run c).2) := by
      intro j
      cases j with
      | zero => rfl
      | succ j =>
        have hcontinues : continues p (e.run c).2 = (false, (e.run c).2) := by
          change (decide (p ≤ Precedence.ofToken (e.run c).2.current.kind), _) = _
          rw [hafter.kind, decide_eq_false hs]
        rw [loop, bind_of hcontinues, if_neg (by decide)]
        rfl
    have hlinks := e.links_lt
    rw [parsePrecedence_succ, bind_of (Prod.ext hopening rfl : _ = (true, _)), if_pos rfl,
      bind_of ((hloop n (by omega)).trans (hends _)), bind_of (check_eq .equal hafter),
      decide_eq_false hne, Bool.and_false, if_neg (by decide)]
    rfl

end LoxMachine
