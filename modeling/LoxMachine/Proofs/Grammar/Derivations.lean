import LoxMachine.Proofs.Grammar.Expressions

/-!
# What the parser of expressions accepts

Where the parser meets no error, the tokens it has read are the symbols of a grammatical tree.

* `Compiler.Passes c w c'`: between the two states the symbols `w` have been read.
* `Derives operand n`: an operand that is parsed without an error is an expression that binds tightly
  enough, and the token after it does not go on with it. `parsePrecedence_derives` proves it of the
  parser. The invariant of its loop is that the next token cannot go on with the expression read so far
  from inside: `Expression.Bars`.
-/

namespace LoxMachine

open Compile

set_option synthInstance.maxSize 4096

/-! ## Reading without errors -/

/-- Tokens of which the last, and no other, is `eof`. -/
inductive Terminated : List Token → Prop
  | eof {t : Token} (h : t.kind = .eof) : Terminated [t]
  | cons {t : Token} {ts : List Token} (h : t.kind ≠ .eof) (more : Terminated ts) : Terminated (t :: ts)

theorem Token.symbol_of_kind {t : Token} {kind : TokenKind} (h : t.kind = kind)
    (hk : kind.isSpelled = false) : t.symbol = kind.symbol := by
  subst h
  unfold symbol TokenKind.symbol
  rw [if_neg (by simp [hk])]

theorem Token.symbol_of_spelled {t : Token} {kind : TokenKind} (h : t.kind = kind)
    (hk : kind.isSpelled = true) : t.symbol = ⟨kind, t.text⟩ := by
  subst h
  unfold symbol
  rw [if_pos hk]

namespace Compiler

/-- A state whose tokens can be read on. -/
structure Ready (c : Compiler) : Prop where
  calm : c.Calm
  terminated : Terminated c.upcoming
  notError : ∀ reason, c.current.kind ≠ .error reason

/-- The symbols read between two states. None was an error. -/
structure Passes (c : Compiler) (w : List Symbol) (c' : Compiler) : Prop where
  ready : c'.Ready
  tokens : ∃ ts, c.upcoming = ts ++ c'.upcoming ∧ ts.map Token.symbol = w ∧
    ∀ t ∈ ts, ∀ reason, t.kind ≠ .error reason

variable {c c₁ c₂ c' : Compiler} {w v : List Symbol}

theorem length_upcoming_pos (c : Compiler) : 0 < c.upcoming.length := by
  obtain ⟨ts, hts⟩ := c.head_upcoming
  simp [hts]

theorem Ready.passes (h : c.Ready) : c.Passes [] c := ⟨h, [], rfl, rfl, nofun⟩

theorem Passes.trans (h : c.Passes w c₁) (h' : c₁.Passes v c₂) : c.Passes (w ++ v) c₂ := by
  obtain ⟨ts, heq, rfl, hts⟩ := h.tokens
  obtain ⟨us, heq', rfl, hus⟩ := h'.tokens
  refine ⟨h'.ready, ts ++ us, by rw [heq, heq', List.append_assoc], List.map_append, fun t ht => ?_⟩
  exact (List.mem_append.1 ht).elim (hts t) (hus t)

theorem Passes.length (h : c.Passes w c') : w.length + c'.upcoming.length = c.upcoming.length := by
  obtain ⟨ts, heq, rfl, -⟩ := h.tokens
  rw [heq, List.length_append, List.length_map]

/-- A later state with the same current token. -/
structure Rests (c c' : Compiler) : Prop where
  passes : c.Passes [] c'
  current : c'.current = c.current

theorem Passes.rest (h : c.Passes w c₁) (h' : c₁.Rests c₂) : c.Passes w c₂ := by
  have := h.trans h'.passes
  rwa [List.append_nil] at this

end Compiler

namespace Compile

variable {α β : Type} {c : Compiler} {kind : TokenKind}

theorem error_ends (hc : c.Calm) (d : Diagnosis) (Q : Unit → Compiler → Prop) : Ends (error d) c Q :=
  fun h => absurd h (errorAt_ne hc _ d)

theorem still_ends (x : Compile α) [hx : Still x] (hc : c.Ready) : Ends x c fun _ c' => c.Rests c' := by
  intro _
  have hsame := hx.same c
  have hup := hx.upcoming c
  refine ⟨⟨⟨hx.calm c hc.calm, ?_, ?_⟩, [], ?_, rfl, nofun⟩, hsame.1⟩
  · rw [hup]
    exact hc.terminated
  · rw [hsame.1]
    exact hc.notError
  · rw [hup]
    rfl

/-- Without an error, the first of the tokens is the current one. -/
theorem pull_eq {ts : List Token} (hts : Terminated ts) (hc : c.Calm) (herr : (c.pull ts).errors = #[]) :
    (c.pull ts).upcoming = ts ∧ (c.pull ts).previous = c.previous ∧
      ∀ reason, (c.pull ts).current.kind ≠ .error reason := by
  cases hts with
  | @eof t heof =>
    simp only [Compiler.pull, heof]
    exact ⟨if_pos heof, trivial, by simp⟩
  | @cons t ts heof more =>
    unfold Compiler.pull at herr ⊢
    split
    · rename_i reason hreason
      rw [hreason] at herr
      exact absurd ((precedes_pull ts _).errors herr) (errorAt_ne hc _ _)
    · exact absurd ‹_› heof
    · rename_i hreason _
      exact ⟨if_neg heof, rfl, hreason⟩

/-- Without an error, the next token is read. -/
theorem advance_ends (hc : c.Ready) (hne : c.current.kind ≠ .eof) :
    Ends advance c fun _ c' => c.Passes [c.current.symbol] c' ∧ c'.previous = c.current := by
  intro herr
  have hup : c.upcoming = c.current :: c.rest := if_neg hne
  have hrest : Terminated c.rest := by
    have hterm := hc.terminated
    rw [hup] at hterm
    generalize c.rest = ts at hterm
    cases hterm with
    | eof h => exact absurd h hne
    | cons _ more => exact more
  obtain ⟨hupcoming, hprevious, herror⟩ := pull_eq (c := { c with previous := c.current }) hrest hc.calm herr
  change (advance c).2.upcoming = c.rest at hupcoming
  refine ⟨⟨⟨calm_pull c.rest hc.calm, ?_, herror⟩, [c.current], ?_, rfl, ?_⟩, hprevious⟩
  · rw [hupcoming]
    exact hrest
  · rw [hupcoming, hup]
    rfl
  · intro t ht
    obtain rfl := List.mem_singleton.1 ht
    exact hc.notError

theorem check_ends (kind : TokenKind) :
    Ends (check kind) c fun b c' => c' = c ∧ (b = true ↔ c.current.kind = kind) :=
  fun _ => ⟨rfl, decide_eq_true_iff⟩

/-- A token that has to come has come. -/
theorem consume_ends {e : Expectation} (hc : c.Ready) (hk : kind.isSpelled = false) (heof : kind ≠ .eof) :
    Ends (consume kind e) c fun _ c' => c.Passes [kind.symbol] c' := by
  refine (check_ends kind).bind fun b c₁ ⟨hc₁, hb⟩ => ?_
  subst hc₁
  cases b with
  | true =>
    have hkind := hb.1 rfl
    rw [← Token.symbol_of_kind hkind hk]
    exact (advance_ends hc (by rwa [hkind])).mono fun _ _ h => h.1
  | false => exact fun h => absurd h (errorAt_ne hc.calm _ _)

/-- A name that has to come has come. -/
theorem consume_name_ends {e : Expectation} (hc : c.Ready) :
    Ends (consume .identifier e) c fun _ c' => ∃ name, c.Passes [.name name] c' := by
  refine (check_ends .identifier).bind fun b c₁ ⟨hc₁, hb⟩ => ?_
  subst hc₁
  cases b with
  | true =>
    have hkind := hb.1 rfl
    refine (advance_ends hc (by rw [hkind]; decide)).mono fun _ c' h => ⟨c₁.current.text, ?_⟩
    rw [Symbol.name, ← Token.symbol_of_spelled hkind rfl]
    exact h.1
  | false => exact fun h => absurd h (errorAt_ne hc.calm _ _)

/-- A token that may come. -/
theorem accept_ends {x y : Compile α} {Q : α → Compiler → Prop} [Orderly x] [Orderly y] (hc : c.Ready)
    (hk : kind.isSpelled = false) (heof : kind ≠ .eof)
    (hx : ∀ c', c.current.kind = kind → c.Passes [kind.symbol] c' → Ends x c' Q) (hy : c.current.kind ≠ kind → Ends y c Q) :
    Ends (do if ← accept kind then x else y) c Q := by
  unfold accept
  rw [bind_assoc]
  refine (check_ends kind).bind fun b c₁ ⟨hc₁, hb⟩ => ?_
  subst hc₁
  cases b with
  | true =>
    have hkind := hb.1 rfl
    rw [← Token.symbol_of_kind hkind hk] at hx
    exact (advance_ends hc (by rwa [hkind])).bind fun _ c₂ h => hx c₂ hkind h.1
  | false => exact hy fun h => by simpa using hb.2 h

instance : Still number := by
  unfold number
  refine Still.bind inferInstance fun text => ?_
  split <;> infer_instance

instance : Still string := inferInstanceAs (Still (_ >>= _))

instance : Still this := by
  unfold this
  infer_instance

instance (p : Precedence) : Orderly (continues p) := inferInstanceAs (Orderly (_ >>= _))

instance (operand : Precedence → Compile Unit) [∀ p, Orderly (operand p)] (n : Nat) (canAssign : Bool) :
    Orderly (step operand n canAssign) := by
  unfold step
  infer_instance

/-- The token read last is the one that was the current one. -/
theorem previous_pull (ts : List Token) (c : Compiler) : (c.pull ts).previous = c.previous := by
  induction ts generalizing c with
  | nil => rfl
  | cons t ts ih =>
    unfold Compiler.pull
    split
    · rw [ih]
      exact (errorAt_same c t _).2.2
    · rfl
    · rfl

end Compile

/-! ## Expressions -/

namespace Precedence

theorem eq_none_of_not_le {q : Precedence} (h : ¬assignment ≤ q) : q = none := by
  cases q <;> first | rfl | exact absurd (by decide) h

theorem OfOperand.le_primary {p : Precedence} (hp : p.OfOperand) : p ≤ primary :=
  Precedence.trans hp.2 (by decide)

/-- The tokens that go on with an expression. -/
theorem continues_cases {kind : TokenKind} (h : assignment ≤ ofToken kind) :
    kind = .leftParen ∨ kind = .dot ∨ kind = .kwAnd ∨ kind = .kwOr ∨
      ∃ operator : BinaryOperator, kind = operator.kind := by
  cases kind with
  | leftParen => exact .inl rfl
  | dot => exact .inr (.inl rfl)
  | kwAnd => exact .inr (.inr (.inl rfl))
  | kwOr => exact .inr (.inr (.inr (.inl rfl)))
  | minus => exact .inr (.inr (.inr (.inr ⟨.subtract, rfl⟩)))
  | plus => exact .inr (.inr (.inr (.inr ⟨.add, rfl⟩)))
  | slash => exact .inr (.inr (.inr (.inr ⟨.divide, rfl⟩)))
  | star => exact .inr (.inr (.inr (.inr ⟨.multiply, rfl⟩)))
  | bangEqual => exact .inr (.inr (.inr (.inr ⟨.notEqual, rfl⟩)))
  | equalEqual => exact .inr (.inr (.inr (.inr ⟨.equal, rfl⟩)))
  | greater => exact .inr (.inr (.inr (.inr ⟨.greater, rfl⟩)))
  | greaterEqual => exact .inr (.inr (.inr (.inr ⟨.greaterEqual, rfl⟩)))
  | less => exact .inr (.inr (.inr (.inr ⟨.less, rfl⟩)))
  | lessEqual => exact .inr (.inr (.inr (.inr ⟨.lessEqual, rfl⟩)))
  | _ => exact absurd h (by simp [le_iff, ofToken, rank])

theorem rank_ofToken (kind : TokenKind) : (ofToken kind).rank ≤ 9 ∧ (ofToken kind).rank ≠ 8 := by
  cases kind <;> simp [ofToken, rank]

end Precedence

namespace Expression

/-- An expression read between two states, which binds at least as tightly as `p`, and which the next
token cannot go on with from inside. -/
structure Parsed (p : Precedence) (c : Compiler) (e : Expression) (c' : Compiler) : Prop where
  grammatical : e.Grammatical
  tight : p ≤ e.precedence
  passes : c.Passes e.symbols c'
  bars : e.Bars c'.current.kind
  noEqual : e.precedence = .assignment → c'.current.kind ≠ .equal

/-- An operator that binds no more tightly than the tokens that an expression bars. -/
theorem le_precedence_of_bars {e : Expression} {kind : TokenKind} (h : e.Bars kind)
    (hkind : .or ≤ Precedence.ofToken kind) :
    Precedence.ofToken kind ≤ e.precedence ∧
      (Precedence.ofToken kind ≤ .and → ¬e.precedence ≤ Precedence.ofToken kind) := by
  simp only [Precedence.le_iff] at *
  cases e with
  | binary operator =>
    have := operator.rank_next
    simp only [precedence, Bars, Precedence.le_iff, Precedence.rank] at *
    omega
  | assign | setProperty =>
    have h : Precedence.ofToken kind = .none := h
    rw [h] at hkind
    exact absurd hkind (by decide)
  | _ =>
    simp only [precedence, Bars, Precedence.le_iff] at *
    have hcall := Precedence.rank_ofToken kind
    generalize (Precedence.ofToken kind).rank = q at *
    simp only [Precedence.rank] at *
    omega

/-- A primary expression. -/
theorem Parsed.primary {p : Precedence} {c c' : Compiler} {e : Expression} (hp : p.OfOperand)
    (he : e.Grammatical) (hprimary : e.precedence = .primary) (hpasses : c.Passes e.symbols c')
    (hbars : e.Bars c'.current.kind) : Parsed p c e c' :=
  ⟨he, hprimary ▸ hp.le_primary, hpasses, hbars, by simp [hprimary]⟩

end Expression

/-- An operand that is parsed without an error is an expression. -/
def Derives (operand : Precedence → Compile Unit) (n : Nat) : Prop :=
  ∀ {p : Precedence} {c : Compiler}, p.OfOperand → c.Ready → c.upcoming.length ≤ n →
    Ends (operand p) c fun _ c' => ∃ e : Expression, e.Grammatical ∧ p ≤ e.precedence ∧
      c.Passes e.symbols c' ∧ ¬p ≤ Precedence.ofToken c'.current.kind ∧
      (p = .assignment → c'.current.kind ≠ .equal)

section Rules

variable {operand : Precedence → Compile Unit} [∀ p, Orderly (operand p)] {n : Nat}
  (hoperand : Derives operand n) {p : Precedence} {c c₀ c₁ : Compiler}

include hoperand

open Expression

omit [∀ p, Orderly (operand p)] in
/-- A whole expression. -/
theorem Derives.whole (hc : c.Ready) (hn : c.upcoming.length ≤ n) :
    Ends (operand .assignment) c fun _ c' => ∃ e : Expression, e.Grammatical ∧ c.Passes e.symbols c' ∧
      Precedence.ofToken c'.current.kind = .none ∧ c'.current.kind ≠ .equal :=
  (hoperand ⟨by decide, by decide⟩ hc hn).mono fun _ _ ⟨e, he, _, hpasses, hnext, hequal⟩ =>
    ⟨e, he, hpasses, Precedence.eq_none_of_not_le hnext, hequal rfl⟩

theorem argumentsFrom_ends {j count : Nat} (hc : c.Ready) (hn : c.upcoming.length ≤ n)
    (hj : c.upcoming.length ≤ j) :
    Ends (argumentsFrom operand j count) c fun _ c' => ∃ (e : Expression) (args : List Expression),
      e.Grammatical ∧ ListGrammatical args ∧ c.Passes (e.symbols ++ moreSymbols args) c' := by
  induction j generalizing c count with
  | zero =>
    have := c.length_upcoming_pos
    omega
  | succ j ih =>
    rw [argumentsFrom_succ]
    refine (hoperand.whole hc hn).bind fun _ c₁ ⟨e, he, h₁, _⟩ => ?_
    refine (still_ends _ h₁.ready).bind fun _ c₂ h => ?_
    have h₂ := h₁.rest h
    refine accept_ends h₂.ready rfl (by decide) (fun c₃ _ h₃ => ?_) fun _ => ?_
    · have h₄ := h₂.trans h₃
      have hlength := h₄.length
      have hpos := e.length_symbols_pos
      rw [List.length_append] at hlength
      refine (ih h₄.ready (by omega) (by omega)).mono fun _ c₄ ⟨e', args, he', hargs, h₅⟩ => ?_
      exact ⟨e, e' :: args, he, ⟨he', hargs⟩, by simpa [moreSymbols] using h₄.trans h₅⟩
    · refine fun _ => ⟨e, [], he, trivial, ?_⟩
      rw [moreSymbols, List.append_nil]
      exact h₂

/-- Arguments and the parenthesis after them. -/
theorem arguments_ends (hc : c.Ready) (hn : c.upcoming.length ≤ n) :
    Ends (arguments operand n) c fun _ c' => ∃ args, ListGrammatical args ∧
      c.Passes (listSymbols args ++ [TokenKind.rightParen.symbol]) c' := by
  have hend : ∀ (args : List Expression) {count : Nat} {c₁ : Compiler}, ListGrammatical args →
      c.Passes (listSymbols args) c₁ →
      Ends (do
        consume .rightParen .rightParenAfterArguments
        return UInt8.ofNat (min count maxArity)) c₁ fun _ c' => ∃ args, ListGrammatical args ∧
          c.Passes (listSymbols args ++ [TokenKind.rightParen.symbol]) c' := fun _ _ _ hargs h₁ =>
    (consume_ends h₁.ready rfl (by decide)).bind fun _ _ h₂ _ => ⟨_, hargs, h₁.trans h₂⟩
  refine (check_ends .rightParen).bind fun b c₁ ⟨hc₁, _⟩ => ?_
  subst hc₁
  cases b with
  | true => exact hend [] trivial hc.passes
  | false =>
    refine (argumentsFrom_ends hoperand hc hn hn).bind fun _ c₂ ⟨e, args, he, hargs, h₂⟩ => ?_
    exact hend (e :: args) ⟨he, hargs⟩ h₂

/-! ### The first operand -/

/-- The rule of a token has been applied, and an expression been read. -/
def Starts (x : Compile Unit) (p : Precedence) (c c₁ : Compiler) : Prop :=
  Ends x c₁ fun _ c' => ∃ e : Expression, Parsed p c e c'

omit hoperand [∀ p, Orderly (operand p)] in
/-- An expression of one token. -/
theorem starts_single (x : Compile Unit) [Still x] (e : Expression) (hp : p.OfOperand)
    (h : c.Passes e.symbols c₁) (he : e.Grammatical) (hprimary : e.precedence = .primary)
    (hbars : ∀ kind, e.Bars kind) : Starts x p c c₁ :=
  (still_ends x h.ready).mono fun _ _ h' => ⟨e, .primary hp he hprimary (h.rest h') (hbars _)⟩

omit [∀ p, Orderly (operand p)] in
theorem grouping_starts (hp : p.OfOperand) (h : c.Passes [TokenKind.leftParen.symbol] c₁)
    (hn : c₁.upcoming.length ≤ n) : Starts (Compile.grouping operand) p c c₁ := by
  refine (hoperand.whole h.ready hn).bind fun _ c₂ ⟨e, he, h₂, _⟩ => ?_
  refine (consume_ends h₂.ready rfl (by decide)).mono fun _ c₃ h₃ => ⟨grouping e, ?_⟩
  refine .primary hp he rfl ?_ trivial
  rw [symbols]
  exact h.trans (h₂.trans h₃)

omit [∀ p, Orderly (operand p)] in
theorem unary_starts (operator : UnaryOperator) (hp : p.OfOperand) (h : c.Passes [operator.kind.symbol] c₁)
    (hn : c₁.upcoming.length ≤ n) : Starts (Compile.unary operand operator.kind) p c c₁ := by
  refine (hoperand ⟨by decide, by decide⟩ h.ready hn).bind fun _ c₂ ⟨e, he, htight, h₂, hnext, _⟩ => ?_
  refine (still_ends _ h₂.ready).mono fun _ c₃ h₃ => ⟨unary operator e, ⟨htight, he⟩, hp.2, ?_, ?_, nofun⟩
  · rw [symbols]
    exact h.trans (h₂.rest h₃)
  · rw [h₃.current]
    exact hnext

theorem name_starts (name : String) (hp : p.OfOperand) (h : c.Passes [.name name] c₁)
    (hn : c₁.upcoming.length ≤ n) : Starts (Compile.name operand (decide (p ≤ .assignment))) p c c₁ := by
  unfold Compile.name
  refine (still_ends _ h.ready).bind fun _ c₂ h₂ => (still_ends _ (h.rest h₂).ready).bind fun a c₃ h₃ => ?_
  have h₄ := (h.rest h₂).rest h₃
  have hread : Starts (emitWith a.getter a.operand) p c c₃ :=
    starts_single _ (read name) hp h₄ trivial rfl fun _ => trivial
  by_cases hassign : p ≤ .assignment
  · rw [decide_eq_true hassign]
    refine (check_ends .equal).bind fun b c₄ ⟨hc₄, hb⟩ => ?_
    subst hc₄
    cases b with
    | false => exact hread
    | true =>
      have hkind := hb.1 rfl
      refine (advance_ends h₄.ready (by rw [hkind]; decide)).bind fun _ c₅ ⟨h₅, _⟩ => ?_
      rw [Token.symbol_of_kind hkind rfl] at h₅
      have hlength := (h₄.trans h₅).length
      have hlength₁ := h.length
      simp only [List.length_append, List.length_singleton] at hlength hlength₁
      refine (hoperand.whole h₅.ready (by omega)).bind fun _ c₆ ⟨e, he, h₆, hnone, hequal⟩ => ?_
      refine (still_ends _ h₆.ready).mono fun _ c₇ h₇ => ⟨assign name e, he, hassign, ?_, ?_, fun _ => ?_⟩
      · rw [symbols]
        exact h₄.trans (h₅.trans (h₆.rest h₇))
      · rw [h₇.current]
        exact hnone
      · rwa [h₇.current]
  · rw [decide_eq_false hassign]
    exact (check_ends .equal).bind fun b c₄ ⟨hc₄, _⟩ => hc₄ ▸ hread

theorem super_starts (hp : p.OfOperand) (h : c.Passes [TokenKind.kwSuper.symbol] c₁)
    (hn : c₁.upcoming.length ≤ n) : Starts (Compile.super operand n) p c c₁ := by
  rw [super_eq]
  refine (still_ends _ h.ready).bind fun _ c₂ h' => ?_
  have h₂ := h.rest h'
  refine (consume_ends h₂.ready rfl (by decide)).bind fun _ c₃ h₃ => ?_
  refine (consume_name_ends h₃.ready).bind fun _ c₄ ⟨name, h₄⟩ => ?_
  refine (still_ends _ h₄.ready).bind fun _ c₅ h₅ => ?_
  refine (still_ends _ (h₄.rest h₅).ready).bind fun _ c₆ h₆ => ?_
  refine (still_ends _ ((h₄.rest h₅).rest h₆).ready).bind fun _ c₇ h₇ => ?_
  have h₈ := h₂.trans (h₃.trans (((h₄.rest h₅).rest h₆).rest h₇))
  refine accept_ends h₈.ready rfl (by decide) (fun c₈ _ h₉ => ?_) fun hparen => ?_
  · have hlength := (h₈.trans h₉).length
    have hlength₁ := h.length
    simp only [List.length_append, List.length_singleton] at hlength hlength₁
    refine (arguments_ends hoperand h₉.ready (by omega)).bind fun _ c₉ ⟨args, hargs, h₁₀⟩ => ?_
    refine (still_ends _ h₁₀.ready).mono fun _ c₁₀ h₁₁ => ⟨superInvoke name args, ?_⟩
    refine .primary hp hargs rfl ?_ trivial
    simpa [symbols] using h₈.trans (h₉.trans (h₁₀.rest h₁₁))
  · refine (still_ends _ h₈.ready).mono fun _ c₈ h₉ => ⟨superProperty name, ?_⟩
    refine .primary hp trivial rfl (by simpa [symbols] using h₈.rest h₉) ?_
    rw [h₉.current]
    exact hparen

/-- **The first operand of an expression**, if there is one. -/
theorem opening_ends (hp : p.OfOperand) (hc : c.Ready) (hn : c.upcoming.length ≤ n + 1) :
    Ends (opening operand n (decide (p ≤ .assignment))) c fun b c' =>
      (b = true ∧ ∃ e : Expression, Parsed p c e c') ∨ (b = false ∧ c'.Calm) := by
  have hopening : opening operand n (decide (p ≤ .assignment)) c =
      startExpression operand n c.current.kind (decide (p ≤ .assignment)) (advance c).2 := by
    change startExpression operand n (advance c).2.previous.kind _ (advance c).2 = _
    rw [show (advance c).2.previous = c.current from previous_pull c.rest _]
  have hstart : ∀ {x : Compile Unit} {kind : TokenKind}, Orderly x → c.current.kind = kind → kind ≠ .eof →
      (∀ c₁, c.Passes [c.current.symbol] c₁ → c₁.upcoming.length ≤ n → Starts x p c c₁) →
      Ends (do x; return true) (advance c).2 fun b c' =>
        (b = true ∧ ∃ e : Expression, Parsed p c e c') ∨ (b = false ∧ c'.Calm) := by
    intro x kind _ hkind heof hx herr
    have herr' : (x (advance c).2).2.errors = #[] := herr
    have herr₁ := (Orderly.precedes (x := x) (advance c).2).errors herr'
    have h₁ := (advance_ends hc (by rwa [hkind]) herr₁).1
    have hlength := h₁.length
    rw [List.length_singleton] at hlength
    exact .inl ⟨rfl, hx _ h₁ (by omega) herr'⟩
  unfold Ends
  rw [hopening]
  cases hkind : c.current.kind with
  | leftParen =>
    refine hstart inferInstance hkind (by decide) fun c₁ h₁ hn₁ => grouping_starts hoperand hp ?_ hn₁
    rwa [Token.symbol_of_kind hkind rfl] at h₁
  | minus =>
    refine hstart inferInstance hkind (by decide) fun c₁ h₁ hn₁ =>
      unary_starts hoperand .negate hp ?_ hn₁
    rwa [Token.symbol_of_kind hkind rfl] at h₁
  | bang =>
    refine hstart inferInstance hkind (by decide) fun c₁ h₁ hn₁ =>
      unary_starts hoperand .not hp ?_ hn₁
    rwa [Token.symbol_of_kind hkind rfl] at h₁
  | number =>
    refine hstart inferInstance hkind (by decide) fun c₁ h₁ _ => ?_
    rw [Token.symbol_of_spelled hkind rfl] at h₁
    exact starts_single _ (number c.current.text) hp h₁ trivial rfl fun _ => trivial
  | string =>
    refine hstart inferInstance hkind (by decide) fun c₁ h₁ _ => ?_
    rw [Token.symbol_of_spelled hkind rfl] at h₁
    exact starts_single _ (string c.current.text) hp h₁ trivial rfl fun _ => trivial
  | kwNil =>
    refine hstart inferInstance hkind (by decide) fun c₁ h₁ _ => ?_
    rw [Token.symbol_of_kind hkind rfl] at h₁
    exact starts_single _ nil hp h₁ trivial rfl fun _ => trivial
  | kwTrue =>
    refine hstart inferInstance hkind (by decide) fun c₁ h₁ _ => ?_
    rw [Token.symbol_of_kind hkind rfl] at h₁
    exact starts_single _ (bool true) hp h₁ trivial rfl fun _ => trivial
  | kwFalse =>
    refine hstart inferInstance hkind (by decide) fun c₁ h₁ _ => ?_
    rw [Token.symbol_of_kind hkind rfl] at h₁
    exact starts_single _ (bool false) hp h₁ trivial rfl fun _ => trivial
  | identifier =>
    refine hstart inferInstance hkind (by decide) fun c₁ h₁ hn₁ =>
      name_starts hoperand c.current.text hp ?_ hn₁
    rwa [Token.symbol_of_spelled hkind rfl] at h₁
  | kwThis =>
    refine hstart inferInstance hkind (by decide) fun c₁ h₁ _ => ?_
    rw [Token.symbol_of_kind hkind rfl] at h₁
    exact starts_single _ Expression.this hp h₁ trivial rfl fun _ => trivial
  | kwSuper =>
    refine hstart inferInstance hkind (by decide) fun c₁ h₁ hn₁ => super_starts hoperand hp ?_ hn₁
    rwa [Token.symbol_of_kind hkind rfl] at h₁
  | _ => exact fun _ => .inr ⟨rfl, calm_pull c.rest hc.calm⟩

/-! ### Operators, calls and properties -/

/-- The rule of a token has been applied, and a longer expression been read. -/
def Continues (x : Compile Unit) (p : Precedence) (left : Expression) (c c₁ : Compiler) : Prop :=
  Ends x c₁ fun _ c' => ∃ e : Expression, Parsed p c e c' ∧ left.symbols.length < e.symbols.length

omit hoperand [∀ p, Orderly (operand p)] in
/-- What the rule of the next token needs to know of the expression before it. -/
theorem Expression.Parsed.goes (h : Parsed p c₀ left c) (hp : p.OfOperand)
    (hgo : p ≤ Precedence.ofToken c.current.kind) :
    Precedence.ofToken c.current.kind ≤ left.precedence ∧
      (Precedence.ofToken c.current.kind ≤ .and →
        ¬left.precedence ≤ Precedence.ofToken c.current.kind) := by
  refine le_precedence_of_bars h.bars ?_
  have hlow := Precedence.trans hp.1 hgo
  revert hlow
  cases c.current.kind <;> simp [Precedence.le_iff, Precedence.ofToken, Precedence.rank]

omit [∀ p, Orderly (operand p)] in
theorem binary_continues {operator : BinaryOperator} {left : Expression} (h : Parsed p c₀ left c)
    (hgo : p ≤ operator.precedence) (hleft : operator.precedence ≤ left.precedence)
    (h₁ : c.Passes [operator.kind.symbol] c₁) (hn : c₁.upcoming.length ≤ n) :
    Continues (Compile.binary operand operator.kind) p left c₀ c₁ := by
  have hoper : operator.precedence.next.OfOperand := by
    cases operator <;> exact ⟨by decide, by decide⟩
  unfold Compile.binary
  rw [operator.ofToken_kind]
  refine (hoperand hoper h₁.ready hn).bind fun _ c₂ ⟨right, hright, htight, h₂, hnext, _⟩ => ?_
  refine (still_ends _ h₂.ready).mono fun _ c₃ h₃ => ⟨binary operator left right, ⟨?_, hgo, ?_, ?_, ?_⟩, by simp [symbols]⟩
  · exact ⟨hleft, h.grammatical, htight, hright⟩
  · rw [symbols]
    exact h.passes.trans (h₁.trans (h₂.rest h₃))
  · rw [h₃.current]
    exact hnext
  · cases operator <;> exact nofun

theorem and_continues {left : Expression} (h : Parsed p c₀ left c) (hgo : p ≤ .and)
    (hleft : .equality ≤ left.precedence) (h₁ : c.Passes [TokenKind.kwAnd.symbol] c₁)
    (hn : c₁.upcoming.length ≤ n) : Continues (conjunction operand) p left c₀ c₁ := by
  unfold conjunction
  refine (still_ends _ h₁.ready).bind fun _ c₂ h₂ => (still_ends _ (h₁.rest h₂).ready).bind fun _ c₃ h₃ => ?_
  have h₄ := (h₁.rest h₂).rest h₃
  have hlength := h₄.length
  have hlength₁ := h₁.length
  refine (hoperand ⟨by decide, by decide⟩ h₄.ready (by omega)).bind
    fun _ c₅ ⟨right, hright, htight, h₅, hnext, _⟩ => ?_
  refine (still_ends _ h₅.ready).mono fun _ c₆ h₆ => ⟨and left right, ⟨?_, hgo, ?_, ?_, nofun⟩, by simp [symbols]⟩
  · exact ⟨hleft, h.grammatical, htight, hright⟩
  · rw [symbols]
    exact h.passes.trans (h₄.trans (h₅.rest h₆))
  · rw [h₆.current]
    exact hnext

theorem or_continues {left : Expression} (h : Parsed p c₀ left c) (hgo : p ≤ .or)
    (hleft : .and ≤ left.precedence) (h₁ : c.Passes [TokenKind.kwOr.symbol] c₁)
    (hn : c₁.upcoming.length ≤ n) : Continues (disjunction operand) p left c₀ c₁ := by
  unfold disjunction
  refine (still_ends _ h₁.ready).bind fun _ c₂ h₂ => (still_ends _ (h₁.rest h₂).ready).bind fun _ c₃ h₃ => ?_
  have h₄ := (h₁.rest h₂).rest h₃
  refine (still_ends _ h₄.ready).bind fun _ c₅ h₅ => (still_ends _ (h₄.rest h₅).ready).bind fun _ c₆ h₆ => ?_
  have h₇ := (h₄.rest h₅).rest h₆
  have hlength := h₇.length
  have hlength₁ := h₁.length
  refine (hoperand ⟨by decide, by decide⟩ h₇.ready (by omega)).bind
    fun _ c₈ ⟨right, hright, htight, h₈, hnext, _⟩ => ?_
  refine (still_ends _ h₈.ready).mono fun _ c₉ h₉ => ⟨or left right, ⟨?_, hgo, ?_, ?_, nofun⟩, by simp [symbols]⟩
  · exact ⟨hleft, h.grammatical, htight, hright⟩
  · rw [symbols]
    exact h.passes.trans (h₇.trans (h₈.rest h₉))
  · rw [h₉.current]
    exact hnext

theorem call_continues {callee : Expression} (h : Parsed p c₀ callee c) (hgo : p ≤ .call)
    (hleft : .call ≤ callee.precedence) (haccess : callee.isAccess = false)
    (h₁ : c.Passes [TokenKind.leftParen.symbol] c₁) (hn : c₁.upcoming.length ≤ n) :
    Continues (Compile.call operand n) p callee c₀ c₁ := by
  unfold Compile.call
  refine (arguments_ends hoperand h₁.ready hn).bind fun _ c₂ ⟨args, hargs, h₂⟩ => ?_
  refine (still_ends _ h₂.ready).mono fun _ c₃ h₃ => ⟨call callee args, ⟨?_, hgo, ?_, trivial, nofun⟩, by simp [symbols]⟩
  · exact ⟨hleft, haccess, h.grammatical, hargs⟩
  · rw [symbols]
    exact h.passes.trans (h₁.trans (h₂.rest h₃))

theorem property_continues {target : Expression} (h : Parsed p c₀ target c) (hp : p.OfOperand)
    (hleft : .call ≤ target.precedence) (h₁ : c.Passes [TokenKind.dot.symbol] c₁)
    (hn : c₁.upcoming.length ≤ n) :
    Continues (Compile.property operand n (decide (p ≤ .assignment))) p target c₀ c₁ := by
  have hcall : p ≤ .call := Precedence.trans hp.2 (by decide)
  unfold Compile.property
  refine (consume_name_ends h₁.ready).bind fun _ c₂ ⟨name, h₂⟩ => ?_
  refine (still_ends _ h₂.ready).bind fun _ c₃ h₃ => (still_ends _ (h₂.rest h₃).ready).bind fun constant c₄ h' => ?_
  have h₄ := h.passes.trans (h₁.trans ((h₂.rest h₃).rest h'))
  have hlength := (h₁.trans ((h₂.rest h₃).rest h')).length
  have hlength₁ := h₁.length
  simp only [List.length_append, List.length_singleton] at hlength hlength₁
  have hread : Continues (do
      if ← accept .leftParen then
        let count ← arguments operand n
        emitWith .invoke constant
        emitByte count
      else emitWith .getProperty constant) p target c₀ c₄ := by
    refine accept_ends h₄.ready rfl (by decide) (fun c₅ _ h₅ => ?_) fun hparen => ?_
    · have hlength₅ := h₅.length
      refine (arguments_ends hoperand h₅.ready (by omega)).bind fun _ c₆ ⟨args, hargs, h₆⟩ => ?_
      refine (still_ends _ h₆.ready).mono fun _ c₇ h₇ =>
        ⟨invoke target name args, ⟨?_, hcall, ?_, trivial, nofun⟩, by simp [symbols]⟩
      · exact ⟨hleft, h.grammatical, hargs⟩
      · simpa [symbols] using h₄.trans (h₅.trans (h₆.rest h₇))
    · refine (still_ends _ h₄.ready).mono fun _ c₅ h₅ => ⟨property target name, ⟨?_, hcall, ?_, ?_, nofun⟩, by simp [symbols]⟩
      · exact ⟨hleft, h.grammatical⟩
      · simpa [symbols] using h₄.rest h₅
      · rw [h₅.current]
        exact hparen
  by_cases hassign : p ≤ .assignment
  · rw [decide_eq_true hassign]
    refine (check_ends .equal).bind fun b c₅ ⟨hc₅, hb⟩ => ?_
    subst hc₅
    cases b with
    | false => exact hread
    | true =>
      have hkind := hb.1 rfl
      refine (advance_ends h₄.ready (by rw [hkind]; decide)).bind fun _ c₆ ⟨h₆, _⟩ => ?_
      rw [Token.symbol_of_kind hkind rfl] at h₆
      have hlength₆ := h₆.length
      refine (hoperand.whole h₆.ready (by omega)).bind fun _ c₇ ⟨value, hvalue, h₇, hnone, hequal⟩ => ?_
      refine (still_ends _ h₇.ready).mono fun _ c₈ h₈ =>
        ⟨setProperty target name value, ⟨?_, hassign, ?_, ?_, fun _ => ?_⟩, by simp [symbols]⟩
      · exact ⟨hleft, h.grammatical, hvalue⟩
      · simpa [symbols] using h₄.trans (h₆.trans (h₇.rest h₈))
      · rw [h₈.current]
        exact hnone
      · rwa [h₈.current]
  · rw [decide_eq_false hassign]
    exact (check_ends .equal).bind fun b c₅ ⟨hc₅, _⟩ => hc₅ ▸ hread

/-- **The next operator, call or property.** -/
theorem step_ends {left : Expression} (h : Parsed p c₀ left c) (hp : p.OfOperand)
    (hgo : p ≤ Precedence.ofToken c.current.kind) (hn : c.upcoming.length ≤ n) :
    Continues (step operand n (decide (p ≤ .assignment))) p left c₀ c := by
  obtain ⟨hleft, hright⟩ := h.goes hp hgo
  have hne : c.current.kind ≠ .eof := by
    intro heof
    rw [heof] at hgo
    exact absurd (Precedence.trans hp.1 hgo) (by decide)
  refine (advance_ends h.passes.ready hne).bind fun _ c₁ ⟨h₁, hprevious⟩ => ?_
  change Continues (continueExpression operand n c₁.previous.kind _) p left c₀ c₁
  have hlength := h₁.length
  rw [List.length_singleton] at hlength
  rw [hprevious]
  obtain hkind | hkind | hkind | hkind | ⟨operator, hkind⟩ :=
    Precedence.continues_cases (Precedence.trans hp.1 hgo)
  · have hbars := h.bars
    rw [hkind] at hgo hleft hbars ⊢
    rw [Token.symbol_of_kind hkind rfl] at h₁
    refine call_continues hoperand h hgo hleft ?_ h₁ (by omega)
    cases left with
    | property | superProperty => exact absurd rfl hbars
    | _ => rfl
  · rw [hkind] at hgo hleft ⊢
    rw [Token.symbol_of_kind hkind rfl] at h₁
    exact property_continues hoperand h hp hleft h₁ (by omega)
  · rw [hkind] at hgo hright ⊢
    rw [Token.symbol_of_kind hkind rfl] at h₁
    refine and_continues hoperand h hgo ?_ h₁ (by omega)
    exact Nat.lt_of_not_le (hright (by decide))
  · rw [hkind] at hgo hright ⊢
    rw [Token.symbol_of_kind hkind rfl] at h₁
    refine or_continues hoperand h hgo ?_ h₁ (by omega)
    exact Nat.lt_of_not_le (hright (by decide))
  · rw [hkind, operator.ofToken_kind] at hgo hleft
    rw [Token.symbol_of_kind hkind (by cases operator <;> rfl)] at h₁
    have hrule : continueExpression operand n operator.kind (decide (p ≤ .assignment)) =
        Compile.binary operand operator.kind := by
      cases operator <;> rfl
    rw [hkind, hrule]
    exact binary_continues hoperand h hgo hleft h₁ (by omega)

/-- **All operators, calls and properties.** They end with a token that binds too loosely. -/
theorem loop_ends {left : Expression} {j : Nat} (h : Parsed p c₀ left c) (hp : p.OfOperand)
    (hn : c.upcoming.length ≤ n) (hj : c.upcoming.length ≤ j) :
    Ends (loop (continues p) (step operand n (decide (p ≤ .assignment))) j) c fun _ c' =>
      ¬p ≤ Precedence.ofToken c'.current.kind ∧ ∃ e : Expression, Parsed p c₀ e c' := by
  induction j generalizing c left with
  | zero =>
    have := c.length_upcoming_pos
    omega
  | succ j ih =>
    unfold loop
    have hcontinues : Ends (continues p) c fun b c' =>
        c' = c ∧ (b = true ↔ p ≤ Precedence.ofToken c.current.kind) := fun _ => ⟨rfl, decide_eq_true_iff⟩
    refine hcontinues.bind fun b c₁ ⟨hc₁, hb⟩ => ?_
    subst hc₁
    cases b with
    | false => exact fun _ => ⟨fun hgo => by simpa using hb.2 hgo, left, h⟩
    | true =>
      refine (step_ends hoperand h hp (hb.1 rfl) hn).bind fun _ c₂ ⟨e, he, hlonger⟩ => ?_
      have hlength := h.passes.length
      have hlength' := he.passes.length
      exact ih he (by omega) (by omega)

end Rules

/-- **The parser of expressions derives expressions.** -/
theorem parsePrecedence_derives (n : Nat) : Derives (parsePrecedence n) n := by
  induction n with
  | zero =>
    intro p c _ _ hn
    have := c.length_upcoming_pos
    omega
  | succ n ih =>
    intro p c hp hc hn
    rw [parsePrecedence_succ]
    refine (opening_ends ih hp hc hn).bind fun b c₁ h₁ => ?_
    obtain ⟨rfl, e₁, he₁⟩ | ⟨rfl, hcalm⟩ := h₁
    · have hlength := he₁.passes.length
      have hpos := e₁.length_symbols_pos
      refine (loop_ends ih he₁ hp (by omega) (by omega)).bind fun _ c₂ ⟨hnext, e, he⟩ => ?_
      refine (check_ends .equal).bind fun b c₃ ⟨hc₃, hb⟩ => ?_
      subst hc₃
      by_cases hassign : p ≤ .assignment
      · cases b with
        | true =>
          rw [decide_eq_true hassign]
          have hkind := hb.1 rfl
          refine (advance_ends he.passes.ready (by rw [hkind]; decide)).bind fun _ c₄ ⟨h₄, _⟩ => ?_
          exact error_ends h₄.ready.calm _ _
        | false =>
          rw [decide_eq_true hassign]
          refine fun _ => ⟨e, he.grammatical, he.tight, he.passes, hnext, fun _ hequal => ?_⟩
          simpa using hb.2 hequal
      · rw [decide_eq_false hassign]
        refine fun _ => ⟨e, he.grammatical, he.tight, he.passes, hnext, ?_⟩
        rintro rfl
        exact absurd (by decide) hassign
    · exact error_ends hcalm _ _

end LoxMachine
