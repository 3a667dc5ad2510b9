import LoxMachine.Proofs.Grammar.Expressions

/-!
# Parsing the symbols of a program

* `Compile.Agrees x y c`: the two actions do the same from `c`, unless one of them meets an error. After
  an error the parser skips tokens, which compiling along a tree does not.
* `statement_agrees`, `declaration_agrees` and `script_agrees`: where the symbols of a statement, a
  declaration or a program come next, the parser agrees with compiling along the tree.
-/

namespace LoxMachine

open Compile

set_option synthInstance.maxSize 4096

variable {c : Compiler} {s : Symbol} {w more : List Symbol}

/-- The symbols to come, in a state where every panic has been reported. -/
structure Compiler.Awaits (c : Compiler) (symbols : List Symbol) : Prop
    extends c.Expects symbols where
  calm : c.Calm

namespace Compile

variable {α β : Type}

/-- The name of the token read last stays while nothing is read. -/
theorem Still.lexeme {x : Compile α} [hx : Still x] {name : String}
    (h : Compile.lexeme c = (name, c)) : Compile.lexeme (x c).2 = (name, (x c).2) := by
  change ((x c).2.previous.text, _) = _
  rw [(hx.same c).2.2]
  exact congrArg (·, _) (congrArg Prod.fst h)

/-! ## Agreement -/

/-- Both actions do the same, unless one of them meets an error. -/
def Agrees (x y : Compile α) (c : Compiler) : Prop :=
  (x c).2.errors = #[] ∨ (y c).2.errors = #[] → x c = y c

namespace Agrees

theorem of_eq {x y : Compile α} (h : x c = y c) : Agrees x y c := fun _ => h

theorem bind {x y : Compile α} {f g : α → Compile β} {k : Nat} [hf : ∀ a, Orderly (f a)]
    [hg : ∀ a, Reads (g a) k] (hx : Agrees x y c) (hfg : Agrees (f (y c).1) (g (y c).1) (y c).2) :
    Agrees (x >>= f) (y >>= g) c := by
  intro h
  have hxy : x c = y c := by
    refine hx (h.imp (fun h => ?_) fun h => ?_)
    · exact ((hf (x c).1).precedes (x c).2).errors h
    · exact (hg (y c).1).clean (y c).2 h
  refine bind_congr hxy (hfg (h.imp (fun h => ?_) id))
  rw [← hxy]
  exact h

/-- One side follows the other while symbols are read. -/
theorem read {x y : Compile α} {f g : α → Compile β} {k : Nat} [∀ a, Orderly (f a)]
    [∀ a, Reads (g a) k] (hy : Reads y w.length) (h : c.Awaits (w ++ more))
    (hmore : more ≠ []) (hx : Agrees x y c)
    (hfg : ∀ a c', c'.Awaits more → Agrees (f a) (g a) c') : Agrees (x >>= f) (y >>= g) c :=
  hx.bind (hfg _ _ ⟨hy.expects h.toExpects hmore, hy.calm c h.calm⟩)

/-- The two sides do the same without reading. -/
theorem same {x y : Compile α} {f g : α → Compile β} {k : Nat} [hy : Still y] [∀ a, Orderly (f a)]
    [∀ a, Reads (g a) k] (h : c.Awaits w) (hxy : x c = y c)
    (hfg : ∀ a c', c'.Awaits w → Agrees (f a) (g a) c') : Agrees (x >>= f) (y >>= g) c :=
  bind (of_eq hxy) (hfg _ _ ⟨hy.expects h.toExpects, hy.calm c h.calm⟩)

/-- Both sides are the same action, which does not read. -/
theorem still {x : Compile α} {f g : α → Compile β} {k : Nat} [Still x] [∀ a, Orderly (f a)]
    [∀ a, Reads (g a) k] (h : c.Awaits w)
    (hfg : ∀ a c', c'.Awaits w → Agrees (f a) (g a) c') : Agrees (x >>= f) (x >>= g) c :=
  same h rfl hfg

/-- Both sides are the same action, which neither reads nor forgets the name read last. -/
theorem stillNamed {x : Compile α} {f g : α → Compile β} {k : Nat} [hx : Still x] [∀ a, Orderly (f a)]
    [∀ a, Reads (g a) k] {name : String} (h : c.Awaits w) (hname : lexeme c = (name, c))
    (hfg : ∀ a c', c'.Awaits w → lexeme c' = (name, c') → Agrees (f a) (g a) c') :
    Agrees (x >>= f) (x >>= g) c :=
  bind (of_eq rfl) (hfg _ _ ⟨hx.expects h.toExpects, hx.calm c h.calm⟩ (Still.lexeme hname))

end Agrees

end Compile

theorem Compiler.Awaits.advance (h : c.Awaits (s :: more)) (hmore : more ≠ []) :
    (Compile.advance c).2.Awaits more :=
  ⟨(h.toExpects.advance hmore).expects, (inferInstance : Reads Compile.advance 1).calm c h.calm⟩

namespace Compile.Agrees

variable {α β : Type}

/-- Both sides read a token. -/
theorem eat {x : Compile Unit} {f g : Unit → Compile β} {k : Nat} [∀ a, Orderly (f a)]
    [∀ a, Reads (g a) k] (h : c.Awaits (s :: more)) (hmore : more ≠ []) (hx : x c = advance c)
    (hfg : ∀ c', c'.Awaits more → c.Passed c' s more → Agrees (f ()) (g ()) c') :
    Agrees (x >>= f) (advance >>= g) c :=
  bind (of_eq hx) (hfg _ (h.advance hmore) (h.toExpects.advance hmore))

/-- One side looks up what is known. -/
theorem known {x : Compile α} {f : α → Compile β} {y : Compile β} {a : α} (hx : x c = (a, c))
    (hf : Agrees (f a) y c) : Agrees (x >>= f) y c := by
  unfold Agrees
  rw [bind_of hx]
  exact hf

/-- The order in which the actions on one side are put together does not matter. -/
theorem assoc {γ : Type} {x : Compile γ} {y : Compile α} {f : α → Compile β} {g : β → Compile γ}
    (h : Agrees x ((y >>= f) >>= g) c) : Agrees x (y >>= fun a => f a >>= g) c := by
  rwa [bind_assoc] at h

/-- One side looks at a token and does not find what it looks for. -/
theorem skip {kind : TokenKind} {x z : Compile β} {y : Compile β} (h : c.Awaits (s :: more))
    (hk : s.kind ≠ kind) (hz : Agrees z y c) :
    Agrees (do if ← accept kind then x else z) y c := by
  unfold Agrees
  rw [bind_of (accept_eq_false kind h.toExpects hk), if_neg (by decide)]
  exact hz

/-- One side looks at a token and reads it. -/
theorem take {kind : TokenKind} {x z : Compile β} {y : Unit → Compile β} (h : c.Awaits (s :: more))
    (hk : s.kind = kind) (hx : Agrees x (y ()) (advance c).2) :
    Agrees (do if ← accept kind then x else z) (advance >>= y) c := by
  unfold Agrees
  rw [bind_of (accept_eq kind h.toExpects hk), if_pos rfl, advance_bind]
  exact hx

/-- One side looks at a token and reads it before it goes on. -/
theorem takeThen {kind : TokenKind} {x y : Compile α} {z : Compile β} {f g : α → Compile β} {k : Nat}
    [∀ a, Orderly (f a)] [∀ a, Reads (g a) k] (h : c.Awaits (s :: more)) (hk : s.kind = kind)
    (hx : x (advance c).2 = y c) (hfg : Agrees (f (y c).1) (g (y c).1) (y c).2) :
    Agrees (do if ← accept kind then x >>= f else z) (y >>= g) c := by
  have hread : Agrees ((advance >>= fun _ => x) >>= f) (y >>= g) c := bind (of_eq hx) hfg
  unfold Agrees
  rw [bind_of (accept_eq kind h.toExpects hk), if_pos rfl, ← advance_bind fun _ => x >>= f, ← bind_assoc]
  exact hread

end Compile.Agrees

/-! ## First symbols -/

theorem Expression.ne_of_starts {kind : TokenKind} (h : starts kind = true) :
    kind ≠ .kwPrint ∧ kind ≠ .kwFor ∧ kind ≠ .kwIf ∧ kind ≠ .kwReturn ∧ kind ≠ .kwWhile ∧
      kind ≠ .leftBrace ∧ kind ≠ .rightBrace ∧ kind ≠ .kwElse ∧ kind ≠ .semicolon ∧
      kind ≠ .rightParen ∧ kind ≠ .kwVar ∧ kind ≠ .kwFun ∧ kind ≠ .kwClass ∧ kind ≠ .eof := by
  refine ⟨?_, ?_, ?_, ?_, ?_, ?_, ?_, ?_, ?_, ?_, ?_, ?_, ?_, ?_⟩ <;>
    · rintro rfl
      cases h

/-- Whether a declaration can start with the kind of token. -/
def Declaration.starts : TokenKind → Bool
  | .kwPrint | .kwFor | .kwIf | .kwReturn | .kwWhile | .leftBrace | .kwVar | .kwFun | .kwClass => true
  | kind => Expression.starts kind

theorem Declaration.ne_of_starts {kind : TokenKind} (h : starts kind = true) :
    kind ≠ .rightBrace ∧ kind ≠ .kwElse ∧ kind ≠ .eof := by
  refine ⟨?_, ?_, ?_⟩ <;>
    · rintro rfl
      cases h

theorem Statement.symbols_eq_cons (s : Statement) :
    ∃ t ts, s.symbols = t :: ts ∧ Declaration.starts t.kind = true ∧
      t.kind ≠ .kwVar ∧ t.kind ≠ .kwFun ∧ t.kind ≠ .kwClass := by
  cases s with
  | expression e =>
    obtain ⟨t, ts, h, ht⟩ := e.symbols_eq_cons
    obtain ⟨-, -, -, -, -, -, -, -, -, -, hvar, hfun, hcls, -⟩ := Expression.ne_of_starts ht
    refine ⟨t, _, by rw [symbols, h, List.cons_append], ?_, hvar, hfun, hcls⟩
    unfold Declaration.starts
    split <;> trivial
  | _ =>
    rw [symbols]
    exact ⟨_, _, rfl, rfl, nofun, nofun, nofun⟩

theorem Declaration.symbols_eq_cons (d : Declaration) :
    ∃ t ts, d.symbols = t :: ts ∧ starts t.kind = true := by
  cases d with
  | statement s =>
    obtain ⟨t, ts, h, ht, -⟩ := s.symbols_eq_cons
    exact ⟨t, ts, by rw [symbols, h], ht⟩
  | var name value =>
    rw [symbols]
    cases value <;> exact ⟨_, _, rfl, rfl⟩
  | _ =>
    rw [symbols]
    exact ⟨_, _, rfl, rfl⟩

theorem Declaration.length_symbols_pos (d : Declaration) : 0 < d.symbols.length := by
  obtain ⟨t, ts, h, -⟩ := d.symbols_eq_cons
  simp [h]

theorem Routine.length_le_listSymbols (methods : List Routine) :
    methods.length ≤ (listSymbols methods).length := by
  induction methods with
  | nil => exact Nat.zero_le _
  | cons f methods ih =>
    obtain ⟨name, ps, body⟩ := f
    rw [listSymbols, symbols, List.length_append, List.length_cons, List.length_cons]
    omega

theorem Declaration.length_le_listSymbols (body : List Declaration) :
    body.length ≤ (listSymbols body).length := by
  induction body with
  | nil => exact Nat.zero_le _
  | cons d body ih =>
    have := d.length_symbols_pos
    rw [listSymbols, List.length_append, List.length_cons]
    omega

/-! ## Parts of statements -/

/-- An expression that a token without precedence ends. -/
theorem expression_run {n : Nat} {e : Expression} (he : e.Grammatical) (hn : e.symbols.length ≤ n)
    (h : c.Awaits (e.symbols ++ s :: more)) (hs : Precedence.ofToken s.kind = .none)
    (hne : s.kind ≠ .equal) : expression n c = e.run c :=
  Follows.whole (parsePrecedence_run n) he hn h.toExpects hs hne

instance (value : Option Expression) : Reads (runValue value) (value.elim 0 (·.symbols.length + 1)) := by
  unfold runValue
  cases value with
  | none => exact inferInstanceAs (Reads (emit _) 0)
  | some e => exact Reads.of_eq inferInstance (Nat.add_comm _ _)

theorem declareVariable_eq {name : String} (h : lexeme c = (name, c)) :
    declareVariable c = declareName name c := by
  change (if 0 < c.draft.depth then _ else _ : Compile Unit) c =
    (if 0 < c.draft.depth then _ else _ : Compile Unit) c
  by_cases hdepth : 0 < c.draft.depth
  · rw [if_pos hdepth, if_pos hdepth, bind_of h]
    unfold errorIf
    by_cases hhere : c.draft.declaresHere name = true
    · rw [if_pos hhere, if_pos hhere]
    · rw [if_neg hhere, if_neg hhere]
      rfl
  · rw [if_neg hdepth, if_neg hdepth]

theorem parseVariable_agrees {e : Expectation} {name : String} (h : c.Awaits (.name name :: s :: more)) :
    parseVariable e c = runName name c := by
  refine eat_congr h.toExpects (by simp) (consume_eq h.toExpects rfl) fun c₁ h₁ => ?_
  have hlexeme := Still.lexeme (x := declareName name) (h₁.lexeme rfl)
  refine bind_congr (declareVariable_eq (h₁.lexeme rfl)) ?_
  change (if 0 < (declareName name c₁).2.draft.depth then _ else _ : Compile UInt8) _ =
    (if 0 < (declareName name c₁).2.draft.depth then _ else _ : Compile UInt8) _
  by_cases hdepth : 0 < (declareName name c₁).2.draft.depth
  · rw [if_pos hdepth, if_pos hdepth]
  · rw [if_neg hdepth, if_neg hdepth, bind_of hlexeme]

/-- A name stays the one read last. -/
theorem runName_lexeme {name : String} (h : c.Awaits (.name name :: s :: more)) :
    lexeme (runName name c).2 = (name, (runName name c).2) := by
  have hname : lexeme (advance c).2 = (name, (advance c).2) :=
    (h.toExpects.advance (by simp)).lexeme rfl
  exact Still.lexeme (x := do
    declareName name
    if 0 < (← get).draft.depth then return 0
    nameConstant name) hname

theorem varDeclaration_agrees {n : Nat} {name : String} {value : Option Expression}
    (hvalue : Expression.OptionGrammatical value) (hn : (variableSymbols name value).length ≤ n)
    (hmore : more ≠ []) (h : c.Awaits ((variableSymbols name value).drop 1 ++ more)) :
    Agrees (varDeclaration (expression n)) (runVariable name value) c := by
  unfold varDeclaration runVariable
  dsimp only
  cases value with
  | none =>
    change c.Awaits (.name name :: TokenKind.semicolon.symbol :: more) at h
    refine .read (w := [.name name]) inferInstance h (by simp) (.of_eq (parseVariable_agrees h))
      fun _ c₁ h₁ => ?_
    refine .skip h₁ (by decide) ?_
    refine .still h₁ fun _ c₂ h₂ => .eat h₂ hmore (consume_eq h₂.toExpects rfl) fun c₃ _ _ => .of_eq rfl
  | some e =>
    rw [variableSymbols, List.drop_one, List.tail_cons, List.cons_append, List.cons_append,
      List.append_assoc] at h
    simp only [variableSymbols, List.length_cons, List.length_append] at hn
    refine .read (w := [.name name]) inferInstance h (by simp) (.of_eq (parseVariable_agrees h))
      fun _ c₁ h₁ => ?_
    rw [runValue, bind_assoc]
    refine .take h₁ rfl ?_
    have h₂ := h₁.advance (by simp)
    refine .read (Expression.reads_run e) h₂ (by simp)
      (.of_eq (expression_run hvalue (by omega) h₂ rfl (by decide))) fun _ c₃ h₃ => ?_
    exact .eat h₃ hmore (consume_eq h₃.toExpects rfl) fun _ _ _ => .of_eq rfl

/-! ## Statements -/

/-- The parser of statements agrees with compiling along the tree, for trees that are not too long. An
`else` belongs to the statement if it can. -/
def StatementsAgree (n : Nat) : Prop :=
  ∀ {s : Statement} {c : Compiler} {t : Symbol} {more : List Symbol}, s.Grammatical →
    2 * s.symbols.length ≤ n → c.Awaits (s.symbols ++ t :: more) →
    (s.isOpen = true → t.kind ≠ .kwElse) → Agrees (statement n) s.run c

/-- The parser of declarations agrees with compiling along the tree, for trees that are not too
long. -/
def DeclarationsAgree (n : Nat) : Prop :=
  ∀ {d : Declaration} {c : Compiler} {t : Symbol} {more : List Symbol}, d.Grammatical →
    2 * d.symbols.length < n → c.Awaits (d.symbols ++ t :: more) → t.kind ≠ .kwElse →
    Agrees (declaration n) d.run c

section Rules

variable {n : Nat}

/-- **Declarations**, up to a token that is no start of one. -/
theorem declarations_agree (hdecl : DeclarationsAgree n) (condition : Compile Bool) (finish : Compile Unit)
    [Orderly condition] {k : Nat} [Reads finish k] {t : Symbol}
    (hgo : ∀ {c : Compiler} {s : Symbol} {more : List Symbol}, c.Awaits (s :: more) →
      Declaration.starts s.kind = true → condition c = (true, c))
    (hstop : ∀ {c : Compiler}, c.Awaits (t :: more) → condition c = (false, (finish c).2))
    (ht : t.kind ≠ .kwElse) {body : List Declaration} {j : Nat}
    (hbody : Declaration.ListGrammatical body) (hn : 2 * (Declaration.listSymbols body).length < n)
    (hj : body.length < j) (h : c.Awaits (Declaration.listSymbols body ++ t :: more)) :
    Agrees (loop condition (declaration n) j) (do Declaration.runList body; finish) c := by
  induction body generalizing j c with
  | nil =>
    obtain ⟨j, rfl⟩ : ∃ i, j = i + 1 := ⟨j - 1, by omega⟩
    refine .of_eq ?_
    rw [loop, bind_of (hstop h), if_neg (by decide)]
    rfl
  | cons d body ih =>
    obtain ⟨j, rfl⟩ : ∃ i, j = i + 1 := ⟨j - 1, by omega⟩
    rw [Declaration.listSymbols, List.append_assoc] at h
    rw [Declaration.listSymbols, List.length_append] at hn
    have hcondition : condition c = (true, c) := by
      obtain ⟨s, ss, hs, hstarts⟩ := d.symbols_eq_cons
      rw [hs] at h
      exact hgo h hstarts
    obtain ⟨u, us, hu, helse⟩ : ∃ u us, Declaration.listSymbols body ++ t :: more = u :: us ∧
        u.kind ≠ .kwElse := by
      cases body with
      | nil => exact ⟨t, more, rfl, ht⟩
      | cons d' body =>
        obtain ⟨u, us, hu, hstarts⟩ := d'.symbols_eq_cons
        exact ⟨u, _, by rw [Declaration.listSymbols, hu]; rfl, (Declaration.ne_of_starts hstarts).2.1⟩
    have hd := h
    rw [hu] at hd
    rw [loop, Declaration.runList, bind_assoc]
    refine .known hcondition ?_
    rw [if_pos rfl]
    refine .read d.reads_run h (by simp) (hdecl hbody.1 (by omega) hd helse) fun _ c₁ h₁ => ?_
    exact ih hbody.2 (by omega) (by simpa using hj) h₁

theorem block_agrees (hdecl : DeclarationsAgree n) {body : List Declaration}
    (hbody : Declaration.ListGrammatical body) (hn : 2 * (Declaration.listSymbols body).length < n)
    (h : c.Awaits (Declaration.listSymbols body ++ TokenKind.rightBrace.symbol :: more)) :
    Agrees (block (declaration n) n) (do Declaration.runList body; advance) c := by
  have hlength := Declaration.length_le_listSymbols body
  have hloop := declarations_agree hdecl (do return !(← check .rightBrace) && !(← check .eof)) (pure ())
    (t := TokenKind.rightBrace.symbol) ?_ ?_ (by decide) hbody hn (j := n) (by omega) h
  · rw [bind_pure_unit] at hloop
    unfold block
    refine .read (Declaration.reads_runList body) h (by simp) hloop fun _ c₁ h₁ => ?_
    exact .of_eq (consume_eq h₁.toExpects rfl)
  · intro c s more h hs
    obtain ⟨hbrace, -, heof⟩ := Declaration.ne_of_starts hs
    rw [bind_of (check_eq .rightBrace h.toExpects), bind_of (check_eq .eof h.toExpects),
      decide_eq_false hbrace, decide_eq_false heof]
    rfl
  · intro c h
    rw [bind_of (check_eq .rightBrace h.toExpects), bind_of (check_eq .eof h.toExpects)]
    rfl

/-! ### Functions -/

theorem parameters_succ (j : Nat) :
    parameters (j + 1) = (do
      countParameter
      defineVariable (← parseVariable .parameterName)
      if ← accept .comma then parameters j) := by
  unfold countParameter
  simp only [parameters, bind_assoc]
  refine congrArg _ (funext fun _ => congrArg _ (funext fun c => ?_))
  split <;> simp

/-- A parameter and what comes after it. -/
theorem runParameter_bind (p : String) (x : Compile Unit) :
    (runParameter p >>= fun _ => x) = (do
      countParameter
      defineVariable (← runName p)
      x) := by
  unfold runParameter
  rw [bind_assoc]
  exact congrArg _ (funext fun _ => bind_assoc ..)

theorem parameters_agree {p : String} {ps : List String} {t : Symbol} {j : Nat} (hj : ps.length < j)
    (ht : t.kind ≠ .comma) (h : c.Awaits (parameterSymbols (p :: ps) ++ t :: more)) :
    Agrees (parameters j) (runParameters (p :: ps)) c := by
  induction ps generalizing p j c with
  | nil =>
    obtain ⟨j, rfl⟩ : ∃ i, j = i + 1 := ⟨j - 1, by omega⟩
    rw [runParameters, parameters_succ, runParameter_bind]
    change Agrees _ (countParameter >>= fun _ => runName p >>= fun global => defineVariable global) c
    refine .still h fun _ c₁ h₁ => ?_
    refine .read (w := [.name p]) inferInstance h₁ (by simp) (.of_eq (parseVariable_agrees h₁))
      fun _ c₂ h₂ => ?_
    exact .still h₂ fun _ c₃ h₃ => .skip h₃ ht (.of_eq rfl)
  | cons q ps ih =>
    obtain ⟨j, rfl⟩ : ∃ i, j = i + 1 := ⟨j - 1, by omega⟩
    have hmore : Reads (ps.forM fun q => do advance; runParameter q)
        (ps.flatMap fun q => [TokenKind.comma.symbol, .name q]).length := reads_moreParameters ps
    have hrun : Reads (runParameters (q :: ps)) _ := reads_runParameters (q :: ps)
    have hsplit : (q :: ps).forM (fun q => do advance; runParameter q) = (do
        advance
        runParameters (q :: ps)) := by
      change ((advance >>= fun _ => runParameter q) >>= fun _ => ps.forM _) = _
      rw [bind_assoc]
      rfl
    rw [runParameters, parameters_succ, runParameter_bind, hsplit]
    refine .still h fun _ c₁ h₁ => ?_
    refine .read (w := [.name p]) inferInstance h₁ (by simp) (.of_eq (parseVariable_agrees h₁))
      fun _ c₂ h₂ => ?_
    refine .still h₂ fun _ c₃ h₃ => .take h₃ rfl ?_
    exact ih (by simpa using hj) (h₃.advance (by simp))

instance (d : Draft) : Orderly (emitClosure d) := by
  unfold emitClosure
  infer_instance

/-- A function from the end of its parameters on. -/
def functionRest (decl : Compile Unit) (fuel : Nat) : Compile Unit := do
  consume .rightParen .rightParenAfterParameters
  consume .leftBrace .leftBraceBeforeFunctionBody
  block decl fuel
  emitClosure (← endFunction)

instance (decl : Compile Unit) [Orderly decl] (fuel : Nat) : Orderly (functionRest decl fuel) := by
  unfold functionRest
  infer_instance

theorem functionBody_eq (decl : Compile Unit) (fuel : Nat) (kind : FunctionKind) :
    functionBody decl fuel kind = (do
      beginFunction kind
      beginScope
      consume .leftParen .leftParenAfterFunctionName
      if !(← check .rightParen) then
        parameters fuel
        functionRest decl fuel
      else functionRest decl fuel) := rfl

theorem length_le_parameterSymbols (ps : List String) : ps.length ≤ (parameterSymbols ps).length := by
  cases ps with
  | nil => exact Nat.zero_le _
  | cons p ps =>
    have hmore : ps.length ≤ (ps.flatMap fun q => [TokenKind.comma.symbol, .name q]).length := by
      rw [List.length_flatMap]
      induction ps with
      | nil => exact Nat.zero_le _
      | cons q ps ih =>
        rw [List.map_cons, List.sum_cons, List.length_cons]
        simp only [List.length_cons, List.length_nil] at *
        omega
    rw [parameterSymbols, List.length_cons, List.length_cons]
    omega

theorem Routine.symbols_mk (name : String) (ps : List String) (body : List Declaration) :
    (Routine.mk name ps body).symbols = .name name :: (Routine.mk name ps body).symbols.drop 1 := by
  rw [symbols]
  rfl

theorem beginFunction_eq {kind : FunctionKind} {name : String} (h : lexeme c = (name, c)) :
    beginFunction kind c = beginNamed kind name c := by
  unfold beginFunction beginNamed
  rw [bind_of h]

/-- **A function**, from its parameters on. -/
theorem functionBody_agrees (hdecl : DeclarationsAgree n) {kind : FunctionKind} {name : String}
    {ps : List String} {body : List Declaration} (hbody : Declaration.ListGrammatical body)
    (hn : 2 * (Routine.mk name ps body).symbols.length < n)
    (h : c.Awaits ((Routine.mk name ps body).symbols.drop 1 ++ more)) (hname : lexeme c = (name, c)) :
    Agrees (functionBody (declaration n) n kind) ((Routine.mk name ps body).run kind) c := by
  have := reads_runParameters ps
  simp only [Routine.symbols, List.length_cons, List.length_append] at hn
  rw [Routine.symbols, List.drop_one, List.tail_cons, List.cons_append, List.append_assoc, List.cons_append,
    List.cons_append, List.append_assoc] at h
  have hrest : ∀ {c : Compiler}, c.Awaits (TokenKind.rightParen.symbol :: TokenKind.leftBrace.symbol ::
      (Declaration.listSymbols body ++ (TokenKind.rightBrace.symbol :: more))) →
      Agrees (functionRest (declaration n) n) (do
        advance
        advance
        Declaration.runList body
        advance
        emitClosure (← endFunction)) c := by
    intro c h
    refine .eat h (by simp) (consume_eq h.toExpects rfl) fun c₁ h₁ _ => ?_
    refine .eat h₁ (by simp) (consume_eq h₁.toExpects rfl) fun c₂ h₂ _ => .assoc ?_
    exact .bind (block_agrees hdecl hbody (by omega) h₂) (.of_eq rfl)
  rw [functionBody_eq, Routine.run]
  refine .same h (beginFunction_eq hname) fun _ c₁ h₁ => .still h₁ fun _ c₂ h₂ => ?_
  refine .eat h₂ (by simp) (consume_eq h₂.toExpects rfl) fun c₃ h₃ _ => ?_
  cases ps with
  | nil => exact .known (check_eq .rightParen h₃.toExpects) (hrest h₃)
  | cons p ps =>
    have hlength : ps.length < n := by
      have := length_le_parameterSymbols (p :: ps)
      rw [List.length_cons] at this
      omega
    refine .known (check_eq .rightParen h₃.toExpects) ?_
    exact .read (reads_runParameters (p :: ps)) h₃ (by simp) (parameters_agree hlength (by decide) h₃)
      fun _ c₄ h₄ => hrest h₄

/-! ### Classes -/

/-- A method and what comes after it. -/
theorem method_bind (decl : Compile Unit) (fuel : Nat) (x : Compile Unit) :
    (method decl fuel >>= fun _ => x) = (do
      consume .identifier .methodName
      let name ← lexeme
      let constant ← nameConstant name
      functionBody decl fuel (if name = "init" then .initializer else .method)
      emitWith .method constant
      x) := by
  simp only [method, bind_assoc]

/-- **Methods**, up to the closing brace. -/
theorem methods_agree (hdecl : DeclarationsAgree n) {methods : List Routine} {j : Nat}
    (hmethods : Routine.ListGrammatical methods) (hn : 2 * (Routine.listSymbols methods).length < n)
    (hj : methods.length < j)
    (h : c.Awaits (Routine.listSymbols methods ++ TokenKind.rightBrace.symbol :: more)) :
    Agrees (loop (do return !(← check .rightBrace) && !(← check .eof)) (method (declaration n) n) j)
      (Routine.runMethods methods) c := by
  induction methods generalizing j c with
  | nil =>
    obtain ⟨j, rfl⟩ : ∃ i, j = i + 1 := ⟨j - 1, by omega⟩
    refine .known ?_ ?_ (a := false)
    · rw [bind_of (check_eq .rightBrace h.toExpects), bind_of (check_eq .eof h.toExpects)]
      rfl
    · rw [if_neg (by decide)]
      exact .of_eq rfl
  | cons f methods ih =>
    obtain ⟨j, rfl⟩ : ∃ i, j = i + 1 := ⟨j - 1, by omega⟩
    obtain ⟨name, ps, body⟩ := f
    rw [Routine.listSymbols, List.append_assoc, Routine.symbols_mk, List.cons_append] at h
    rw [Routine.listSymbols, List.length_append] at hn
    have hkinds := h.toExpects
    refine .known ?_ ?_ (a := true)
    · rw [bind_of (check_eq .rightBrace h.toExpects), bind_of (check_eq .eof h.toExpects)]
      rfl
    · have hrun := Routine.reads_run (methodKind name) (.mk name ps body)
      have hbind : (runMethod name ((Routine.mk name ps body).run (methodKind name)) >>= fun _ =>
          Routine.runMethods methods) = (do
            advance
            let constant ← nameConstant name
            (Routine.mk name ps body).run (methodKind name)
            emitWith .method constant
            Routine.runMethods methods) := by
        simp only [runMethod, bind_assoc]
      rw [if_pos rfl, Routine.runMethods, method_bind, hbind]
      refine .eat h (by simp) (consume_eq h.toExpects rfl) fun c₁ h₁ hp => ?_
      refine .known (hp.lexeme rfl) (.stillNamed h₁ (hp.lexeme rfl) fun _ c₂ h₂ hname => ?_)
      refine .read (Reads.of_eq hrun (by simp)) h₂ (by simp)
        (functionBody_agrees hdecl hmethods.1 (by omega) h₂ hname) fun _ c₃ h₃ => .still h₃ fun _ c₄ h₄ => ?_
      exact ih hmethods.2 (by omega) (by simpa using hj) h₄

theorem superclass_run {name super : String} (h : c.Awaits (TokenKind.less.symbol :: .name super :: s :: more)) :
    superclass name (advance c).2 = runSuperclass name super c := by
  have h₁ := h.advance (by simp)
  rw [superclass, runSuperclass, advance_bind]
  refine eat_congr h₁.toExpects (by simp) (consume_eq h₁.toExpects rfl) fun c₂ h₂ => ?_
  have hlexeme := h₂.lexeme rfl
  rw [bind_of hlexeme]
  refine bind_congr rfl ?_
  have hprevious : lexeme (readVariable super c₂).2 = (super, (readVariable super c₂).2) := by
    have hsame := ((inferInstance : Still (readVariable super)).same c₂).2.2
    change ((readVariable super c₂).2.previous.text, _) = _
    rw [hsame]
    exact congrArg (·, _) (congrArg Prod.fst hlexeme)
  rw [bind_of hprevious]
  unfold errorIf
  split <;> simp

/-- **A class**, from its members on. -/
theorem classBody_agrees (hdecl : DeclarationsAgree n) {name : String} {methods : List Routine}
    (hmethods : Routine.ListGrammatical methods) (hn : 2 * (Routine.listSymbols methods).length < n)
    (hmore : more ≠ [])
    (h : c.Awaits (TokenKind.leftBrace.symbol ::
      (Routine.listSymbols methods ++ TokenKind.rightBrace.symbol :: more))) :
    Agrees (classBody (declaration n) n name) (do
      readVariable name
      advance
      Routine.runMethods methods
      advance
      leaveClass) c := by
  have hread := Routine.reads_runMethods methods
  have hlength := Routine.length_le_listSymbols methods
  unfold classBody
  refine .still h fun _ c₁ h₁ => .eat h₁ (by simp) (consume_eq h₁.toExpects rfl) fun c₂ h₂ _ => ?_
  refine .read hread h₂ (by simp) (methods_agree hdecl hmethods hn (by omega) h₂) fun _ c₃ h₃ => ?_
  exact .eat h₃ hmore (consume_eq h₃.toExpects rfl) fun _ _ _ => .of_eq rfl

theorem classDeclaration_agrees (hdecl : DeclarationsAgree n) {name : String} {super : Option String}
    {methods : List Routine} (hmethods : Routine.ListGrammatical methods)
    (hn : 2 * (Routine.listSymbols methods).length < n) (hmore : more ≠ [])
    (h : c.Awaits (.name name :: (super.elim [] (fun s => [TokenKind.less.symbol, .name s]) ++
      TokenKind.leftBrace.symbol :: (Routine.listSymbols methods ++ TokenKind.rightBrace.symbol :: more)))) :
    Agrees (classDeclaration (declaration n) n) (runClass name super (Routine.runMethods methods)) c := by
  unfold classDeclaration runClass
  dsimp only
  cases super with
  | none =>
    refine .eat h (by simp) (consume_eq h.toExpects rfl) fun c₁ h₁ hp => .known (hp.lexeme rfl) ?_
    refine .stillNamed h₁ (hp.lexeme rfl) fun _ c₂ h₂ hname => ?_
    refine .same h₂ (declareVariable_eq hname) fun _ c₃ h₃ => .still h₃ fun _ c₄ h₄ => ?_
    refine .still h₄ fun _ c₅ h₅ => .still h₅ fun _ c₆ h₆ => .skip h₆ (by decide) ?_
    exact classBody_agrees hdecl hmethods hn hmore h₆
  | some super =>
    have hread := reads_runSuperclass name super
    refine .eat h (by simp) (consume_eq h.toExpects rfl) fun c₁ h₁ hp => .known (hp.lexeme rfl) ?_
    refine .stillNamed h₁ (hp.lexeme rfl) fun _ c₂ h₂ hname => ?_
    refine .same h₂ (declareVariable_eq hname) fun _ c₃ h₃ => .still h₃ fun _ c₄ h₄ => ?_
    refine .still h₄ fun _ c₅ h₅ => .still h₅ fun _ c₆ h₆ => ?_
    refine .takeThen h₆ rfl (superclass_run h₆) (classBody_agrees hdecl hmethods hn hmore ?_)
    exact ⟨hread.expects (w := [_, _]) h₆.toExpects (by simp), hread.calm _ h₆.calm⟩

theorem funDeclaration_agrees (hdecl : DeclarationsAgree n) {f : Routine} (hf : f.Grammatical)
    (hn : 2 * f.symbols.length < n) (h : c.Awaits (f.symbols ++ s :: more)) :
    Agrees (funDeclaration (declaration n) n) (runFunction f.name (f.run .function)) c := by
  obtain ⟨name, ps, body⟩ := f
  have hrun := Routine.reads_run .function (.mk name ps body)
  rw [Routine.symbols_mk, List.cons_append] at h
  have hdrop : (Routine.mk name ps body).symbols.drop 1 ++ s :: more ≠ [] := by simp
  obtain ⟨t, ts, ht⟩ := List.exists_cons_of_ne_nil hdrop
  have hname := h
  rw [ht] at hname
  have hruns : Reads (runName name) 1 := inferInstance
  unfold funDeclaration runFunction
  refine .bind (.of_eq (parseVariable_agrees hname)) ?_
  refine .stillNamed ⟨hruns.expects (w := [.name name]) h.toExpects hdrop, hruns.calm c h.calm⟩
    (runName_lexeme hname) fun _ c₂ h₂ hlexeme => ?_
  exact .read (w := (Routine.mk name ps body).symbols.drop 1) (Reads.of_eq hrun (by simp)) h₂ (by simp)
    (functionBody_agrees hdecl hf hn h₂ hlexeme) fun _ _ _ => .of_eq rfl

/-! ### Statements -/

theorem ifStatement_agrees (hstmt : StatementsAgree n) {condition : Expression} {body : Statement}
    (hcondition : condition.Grammatical) (hbody : body.Grammatical)
    (hn : condition.symbols.length + 2 * body.symbols.length ≤ n)
    (h : c.Awaits (TokenKind.leftParen.symbol :: (condition.symbols ++ TokenKind.rightParen.symbol ::
      (body.symbols ++ s :: more)))) (hs : s.kind ≠ .kwElse) :
    Agrees (ifStatement (expression n) (statement n)) (runIf condition body.run) c := by
  unfold ifStatement runIf
  dsimp only
  refine .eat h (by simp) (consume_eq h.toExpects rfl) fun c₁ h₁ _ => ?_
  refine .read condition.reads_run h₁ (by simp)
    (.of_eq (expression_run hcondition (by omega) h₁ rfl (by decide))) fun _ c₂ h₂ => ?_
  refine .eat h₂ (by simp) (consume_eq h₂.toExpects rfl) fun c₃ h₃ _ => ?_
  refine .still h₃ fun _ c₄ h₄ => .still h₄ fun _ c₅ h₅ => ?_
  refine .read body.reads_run h₅ (by simp) (hstmt hbody (by omega) h₅ fun _ => hs) fun _ c₆ h₆ => ?_
  refine .still h₆ fun _ c₇ h₇ => .still h₇ fun _ c₈ h₈ => .still h₈ fun _ c₉ h₉ => ?_
  exact .skip h₉ hs (.of_eq rfl)

theorem ifElseStatement_agrees (hstmt : StatementsAgree n) {condition : Expression}
    {body otherwise : Statement} (hcondition : condition.Grammatical) (hbody : body.Grammatical)
    (hopen : body.isOpen = false) (hotherwise : otherwise.Grammatical)
    (hn : condition.symbols.length + 2 * body.symbols.length + 2 * otherwise.symbols.length ≤ n)
    (h : c.Awaits (TokenKind.leftParen.symbol :: (condition.symbols ++ TokenKind.rightParen.symbol ::
      (body.symbols ++ TokenKind.kwElse.symbol :: (otherwise.symbols ++ s :: more)))))
    (hs : otherwise.isOpen = true → s.kind ≠ .kwElse) :
    Agrees (ifStatement (expression n) (statement n)) (runIfElse condition body.run otherwise.run) c := by
  unfold ifStatement runIfElse
  dsimp only
  refine .eat h (by simp) (consume_eq h.toExpects rfl) fun c₁ h₁ _ => ?_
  refine .read condition.reads_run h₁ (by simp)
    (.of_eq (expression_run hcondition (by omega) h₁ rfl (by decide))) fun _ c₂ h₂ => ?_
  refine .eat h₂ (by simp) (consume_eq h₂.toExpects rfl) fun c₃ h₃ _ => ?_
  refine .still h₃ fun _ c₄ h₄ => .still h₄ fun _ c₅ h₅ => ?_
  refine .read body.reads_run h₅ (by simp) (hstmt hbody (by omega) h₅ (by simp [hopen])) fun _ c₆ h₆ => ?_
  refine .still h₆ fun _ c₇ h₇ => .still h₇ fun _ c₈ h₈ => .still h₈ fun _ c₉ h₉ => ?_
  refine .take h₉ rfl ?_
  have h₁₀ := h₉.advance (by simp)
  exact .read otherwise.reads_run h₁₀ (by simp) (hstmt hotherwise (by omega) h₁₀ hs) fun _ _ _ => .of_eq rfl

theorem whileStatement_agrees (hstmt : StatementsAgree n) {condition : Expression} {body : Statement}
    (hcondition : condition.Grammatical) (hbody : body.Grammatical)
    (hn : condition.symbols.length + 2 * body.symbols.length ≤ n)
    (h : c.Awaits (TokenKind.leftParen.symbol :: (condition.symbols ++ TokenKind.rightParen.symbol ::
      (body.symbols ++ s :: more)))) (hs : body.isOpen = true → s.kind ≠ .kwElse) :
    Agrees (whileStatement (expression n) (statement n)) (runWhile condition body.run) c := by
  unfold whileStatement runWhile
  refine .still h fun _ c₀ h₀ => .eat h₀ (by simp) (consume_eq h₀.toExpects rfl) fun c₁ h₁ _ => ?_
  refine .read condition.reads_run h₁ (by simp)
    (.of_eq (expression_run hcondition (by omega) h₁ rfl (by decide))) fun _ c₂ h₂ => ?_
  refine .eat h₂ (by simp) (consume_eq h₂.toExpects rfl) fun c₃ h₃ _ => ?_
  refine .still h₃ fun _ c₄ h₄ => .still h₄ fun _ c₅ h₅ => ?_
  exact .read body.reads_run h₅ (by simp) (hstmt hbody (by omega) h₅ hs) fun _ _ _ => .of_eq rfl

theorem forInitializer_agrees {init : Initializer} (hinit : init.Grammatical) (hn : init.symbols.length ≤ n)
    (hmore : more ≠ []) (h : c.Awaits (init.symbols ++ more)) :
    Agrees (forInitializer (expression n)) init.run c := by
  unfold forInitializer
  cases init with
  | none =>
    rw [Initializer.run, ← bind_pure_unit (x := advance)]
    exact .take h rfl (.of_eq rfl)
  | var name value =>
    rw [Initializer.symbols] at h hn
    obtain ⟨w, hw⟩ : ∃ w, variableSymbols name value = TokenKind.kwVar.symbol :: w := by
      cases value <;> exact ⟨_, rfl⟩
    have hvar := h
    rw [hw] at hvar
    rw [Initializer.run]
    refine .skip hvar (by decide) (.take hvar rfl ?_)
    refine varDeclaration_agrees hinit hn hmore ?_
    rw [hw]
    exact hvar.advance (by simp [hmore])
  | expression e =>
    obtain ⟨t, ts, ht, hstarts⟩ := e.symbols_eq_cons
    obtain ⟨-, -, -, -, -, -, -, -, hsemicolon, -, hvar, -⟩ := Expression.ne_of_starts hstarts
    rw [Initializer.symbols, List.append_assoc] at h
    rw [Initializer.symbols, List.length_append] at hn
    have hfirst := h
    rw [ht] at hfirst
    rw [Initializer.run]
    refine .skip hfirst hsemicolon (.skip hfirst hvar ?_)
    refine .read e.reads_run h (by simp) (.of_eq (expression_run hinit (by omega) h rfl (by decide)))
      fun _ c₁ h₁ => ?_
    exact .eat h₁ hmore (consume_eq h₁.toExpects rfl) fun _ _ _ => .of_eq rfl

theorem forCondition_agrees {condition : Option Expression}
    (hcondition : Expression.OptionGrammatical condition)
    (hn : (Expression.optionSymbols condition).length ≤ n) (hmore : more ≠ [])
    (h : c.Awaits (Expression.optionSymbols condition ++ TokenKind.semicolon.symbol :: more)) :
    Agrees (forCondition (expression n)) (runCondition condition) c := by
  unfold forCondition runCondition
  cases condition with
  | none => exact .take h rfl (.of_eq rfl)
  | some e =>
    obtain ⟨t, ts, ht, hstarts⟩ := e.symbols_eq_cons
    obtain ⟨-, -, -, -, -, -, -, -, hsemicolon, -⟩ := Expression.ne_of_starts hstarts
    rw [Expression.optionSymbols] at h hn
    have hfirst := h
    rw [ht] at hfirst
    refine .skip hfirst hsemicolon ?_
    refine .read e.reads_run h (by simp) (.of_eq (expression_run hcondition hn h rfl (by decide)))
      fun _ c₁ h₁ => ?_
    exact .eat h₁ hmore (consume_eq h₁.toExpects rfl) fun _ _ _ => .of_eq rfl

theorem forIncrement_agrees {increment : Option Expression} {start : Nat}
    (hincrement : Expression.OptionGrammatical increment)
    (hn : (Expression.optionSymbols increment).length ≤ n) (hmore : more ≠ [])
    (h : c.Awaits (Expression.optionSymbols increment ++ TokenKind.rightParen.symbol :: more)) :
    Agrees (forIncrement (expression n) start) (runIncrement start increment) c := by
  unfold forIncrement runIncrement
  cases increment with
  | none => exact .take h rfl (.of_eq rfl)
  | some e =>
    obtain ⟨t, ts, ht, hstarts⟩ := e.symbols_eq_cons
    obtain ⟨-, -, -, -, -, -, -, -, -, hparen, -⟩ := Expression.ne_of_starts hstarts
    rw [Expression.optionSymbols] at h hn
    have hfirst := h
    rw [ht] at hfirst
    refine .skip hfirst hparen (.still h fun _ c₁ h₁ => .still h₁ fun _ c₂ h₂ => ?_)
    refine .read e.reads_run h₂ (by simp) (.of_eq (expression_run hincrement hn h₂ rfl (by decide)))
      fun _ c₃ h₃ => .still h₃ fun _ c₄ h₄ => ?_
    exact .eat h₄ hmore (consume_eq h₄.toExpects rfl) fun _ _ _ => .of_eq rfl

theorem forStatement_agrees (hstmt : StatementsAgree n) {init : Initializer}
    {condition increment : Option Expression} {body : Statement} (hinit : init.Grammatical)
    (hcondition : Expression.OptionGrammatical condition)
    (hincrement : Expression.OptionGrammatical increment) (hbody : body.Grammatical)
    (hn : init.symbols.length + (Expression.optionSymbols condition).length +
      (Expression.optionSymbols increment).length + 2 * body.symbols.length ≤ n)
    (h : c.Awaits (TokenKind.leftParen.symbol :: (init.symbols ++ (Expression.optionSymbols condition ++
      TokenKind.semicolon.symbol :: (Expression.optionSymbols increment ++ TokenKind.rightParen.symbol ::
        (body.symbols ++ s :: more))))))
    (hs : body.isOpen = true → s.kind ≠ .kwElse) :
    Agrees (forStatement (expression n) (statement n)) (runFor init condition increment body.run) c := by
  have := init.reads_run
  have hconditionReads := reads_runCondition condition
  have hincrementReads := fun start => reads_runIncrement start increment
  have := orderly_forEnd
  unfold forStatement runFor
  dsimp only
  refine .still h fun _ c₁ h₁ => .eat h₁ (by simp) (consume_eq h₁.toExpects rfl) fun c₂ h₂ _ => ?_
  refine .read init.reads_run h₂ (by simp) (forInitializer_agrees hinit (by omega) (by simp) h₂)
    fun _ c₃ h₃ => .still h₃ fun _ c₄ h₄ => ?_
  refine .read (w := Expression.optionSymbols condition ++ [TokenKind.semicolon.symbol])
    (Reads.of_eq hconditionReads (by simp)) (by simpa using h₄) (by simp)
    (forCondition_agrees hcondition (by omega) (by simp) h₄) fun leave c₅ h₅ => ?_
  refine .read (w := Expression.optionSymbols increment ++ [TokenKind.rightParen.symbol])
    (Reads.of_eq (hincrementReads _) (by simp)) (by simpa using h₅) (by simp)
    (forIncrement_agrees hincrement (by omega) (by simp) h₅) fun start c₆ h₆ => ?_
  refine .read body.reads_run h₆ (by simp) (hstmt hbody (by omega) h₆ hs) fun _ c₇ h₇ => ?_
  refine .still h₇ fun _ c₈ h₈ => .of_eq ?_
  unfold runLeave
  cases leave <;> rfl

theorem returnStatement_eq (expr : Compile Unit) :
    returnStatement expr = (do
      errorIf ((← get).draft.kind = .script) .returnAtTopLevel
      if ← accept .semicolon then emitReturn
      else
        errorIf ((← get).draft.kind = .initializer) .returnValueFromInitializer
        expr
        consume .semicolon .semicolonAfterReturnValue
        emit .ret) := by
  have hif : ∀ (p : Prop) [Decidable p] (d : Diagnosis) (x : Compile Unit),
      (if p then error d >>= fun _ => x else x) = errorIf p d >>= fun _ => x := by
    intro p _ d x
    unfold errorIf
    split <;> simp
  unfold returnStatement
  simp only [← hif]

theorem returnStatement_agrees {value : Option Expression} (hvalue : Expression.OptionGrammatical value)
    (hn : (Expression.optionSymbols value).length ≤ n) (hmore : more ≠ [])
    (h : c.Awaits (Expression.optionSymbols value ++ TokenKind.semicolon.symbol :: more)) :
    Agrees (returnStatement (expression n)) (runReturn value) c := by
  rw [returnStatement_eq, runReturn]
  cases value with
  | none =>
    refine .still h fun _ c₁ h₁ => .still h₁ fun _ c₂ h₂ => ?_
    exact .take h₂ rfl (.of_eq rfl)
  | some e =>
    obtain ⟨t, ts, ht, hstarts⟩ := e.symbols_eq_cons
    obtain ⟨-, -, -, -, -, -, -, -, hsemicolon, -⟩ := Expression.ne_of_starts hstarts
    rw [Expression.optionSymbols] at h hn
    refine .still h fun _ c₁ h₁ => .still h₁ fun _ c₂ h₂ => ?_
    have hfirst := h₂
    rw [ht] at hfirst
    refine .skip hfirst hsemicolon (.still h₂ fun _ c₃ h₃ => .still h₃ fun _ c₄ h₄ => ?_)
    refine .read e.reads_run h₄ (by simp) (.of_eq (expression_run hvalue hn h₄ rfl (by decide)))
      fun _ c₅ h₅ => ?_
    exact .eat h₅ hmore (consume_eq h₅.toExpects rfl) fun _ _ _ => .of_eq rfl

/-- **A statement**, if the parsers of its parts agree. -/
theorem statementRule_agrees (hstmt : StatementsAgree n) (hdecl : DeclarationsAgree n) :
    StatementsAgree (n + 1) := by
  intro st c t more hst hn h hopen
  change Agrees (statementRule (expression n) (statement n) (declaration n) n) _ c
  unfold statementRule
  cases st with
  | print e =>
    simp only [Statement.symbols, List.length_cons, List.length_append] at hn
    rw [Statement.symbols, List.cons_append, List.append_assoc] at h
    rw [Statement.run]
    refine .take h rfl ?_
    have h₁ := h.advance (by simp)
    refine .read e.reads_run h₁ (by simp) (.of_eq (expression_run hst (by omega) h₁ rfl (by decide)))
      fun _ c₂ h₂ => ?_
    exact .eat h₂ (by simp) (consume_eq h₂.toExpects rfl) fun _ _ _ => .of_eq rfl
  | forLoop init condition increment body =>
    obtain ⟨hinit, hcondition, hincrement, hbody⟩ := hst
    simp only [Statement.symbols, List.length_cons, List.length_append] at hn
    simp only [Statement.symbols, List.cons_append, List.append_assoc] at h
    rw [Statement.run]
    refine .skip h (by decide) (.take h rfl ?_)
    exact forStatement_agrees hstmt hinit hcondition hincrement hbody (by omega) (h.advance (by simp)) hopen
  | ifThen condition body =>
    obtain ⟨hcondition, hbody⟩ := hst
    simp only [Statement.symbols, List.length_cons, List.length_append] at hn
    simp only [Statement.symbols, List.cons_append, List.append_assoc] at h
    rw [Statement.run]
    refine .skip h (by decide) (.skip h (by decide) (.take h rfl ?_))
    exact ifStatement_agrees hstmt hcondition hbody (by omega) (h.advance (by simp)) (hopen rfl)
  | ifThenElse condition body otherwise =>
    obtain ⟨hcondition, hbody, hclosed, hotherwise⟩ := hst
    simp only [Statement.symbols, List.length_cons, List.length_append] at hn
    simp only [Statement.symbols, List.cons_append, List.append_assoc] at h
    rw [Statement.run]
    refine .skip h (by decide) (.skip h (by decide) (.take h rfl ?_))
    exact ifElseStatement_agrees hstmt hcondition hbody hclosed hotherwise (by omega) (h.advance (by simp))
      hopen
  | ret value =>
    simp only [Statement.symbols, List.length_cons, List.length_append] at hn
    rw [Statement.symbols, List.cons_append, List.append_assoc] at h
    rw [Statement.run]
    refine .skip h (by decide) (.skip h (by decide) (.skip h (by decide) (.take h rfl ?_)))
    exact returnStatement_agrees hst (by omega) (by simp) (h.advance (by simp))
  | whileLoop condition body =>
    obtain ⟨hcondition, hbody⟩ := hst
    simp only [Statement.symbols, List.length_cons, List.length_append] at hn
    simp only [Statement.symbols, List.cons_append, List.append_assoc] at h
    rw [Statement.run]
    refine .skip h (by decide) (.skip h (by decide) (.skip h (by decide) (.skip h (by decide)
      (.take h rfl ?_))))
    exact whileStatement_agrees hstmt hcondition hbody (by omega) (h.advance (by simp)) hopen
  | block body =>
    simp only [Statement.symbols, List.length_cons, List.length_append] at hn
    rw [Statement.symbols, List.cons_append, List.append_assoc] at h
    rw [Statement.run, runBlock]
    refine .skip h (by decide) (.skip h (by decide) (.skip h (by decide) (.skip h (by decide)
      (.skip h (by decide) (.take h rfl ?_)))))
    have h₁ := h.advance (by simp)
    refine .still h₁ fun _ c₂ h₂ => .assoc (.bind (block_agrees hdecl hst (by omega) h₂) (.of_eq rfl))
  | expression e =>
    obtain ⟨u, us, hu, hstarts⟩ := e.symbols_eq_cons
    obtain ⟨hprint, hfor, hif, hreturn, hwhile, hbrace, -⟩ := Expression.ne_of_starts hstarts
    simp only [Statement.symbols, List.length_append, List.length_cons] at hn
    rw [Statement.symbols, List.append_assoc] at h
    have hfirst := h
    rw [hu] at hfirst
    rw [Statement.run]
    refine .skip hfirst hprint (.skip hfirst hfor (.skip hfirst hif (.skip hfirst hreturn
      (.skip hfirst hwhile (.skip hfirst hbrace ?_)))))
    refine .read e.reads_run h (by simp) (.of_eq (expression_run hst (by omega) h rfl (by decide)))
      fun _ c₁ h₁ => ?_
    exact .eat h₁ (by simp) (consume_eq h₁.toExpects rfl) fun _ _ _ => .of_eq rfl

/-- The end of a declaration: without an error there is nothing to recover from. -/
theorem recover_agrees (fuel : Nat) {x y : Compile Unit} {k : Nat} (hy : Reads y k) (hc : c.Calm)
    (hxy : Agrees x y c) :
    Agrees (do
      x
      if (← get).panicking then synchronize fuel) y c := by
  have horderly : Orderly (do if (← get).panicking then synchronize fuel : Compile Unit) := inferInstance
  intro h
  have hsame : x c = y c := by
    refine hxy (h.imp (fun h => ?_) id)
    exact (horderly.precedes (x c).2).errors h
  have hrest : (do
      x
      if (← get).panicking then synchronize fuel : Compile Unit) c =
      (if (y c).2.panicking = true then synchronize fuel else pure ()) (y c).2 := by
    rw [← hsame]
    rfl
  rw [hrest] at h ⊢
  by_cases hpanic : (y c).2.panicking = true
  · have hnone : (y c).2.errors = #[] := by
      refine h.elim (fun h => ?_) id
      rw [if_pos hpanic] at h
      exact ((inferInstance : Orderly (synchronize fuel)).precedes _).errors h
    exact absurd hnone (hy.calm c hc hpanic)
  · rw [if_neg hpanic]
    rfl

theorem declaration_succ (n : Nat) :
    declaration (n + 1) = (do
      (do
        if ← accept .kwClass then classDeclaration (declaration n) n
        else if ← accept .kwFun then funDeclaration (declaration n) n
        else if ← accept .kwVar then varDeclaration (expression n)
        else statement n)
      if (← get).panicking then synchronize n) := by
  have hif : ∀ (b : Bool) (x y : Compile Unit) (f : Unit → Compile Unit),
      (if b then x else y) >>= f = if b then x >>= f else y >>= f := by
    intro b x y f
    cases b <;> rfl
  change declarationRule _ _ _ _ = _
  unfold declarationRule
  simp only [bind_assoc, hif]

/-- **A declaration**, if the parsers of its parts agree. -/
theorem declarationRule_agrees (hstmt : StatementsAgree n) (hdecl : DeclarationsAgree n) :
    DeclarationsAgree (n + 1) := by
  intro d c t more hd hn h ht
  rw [declaration_succ]
  refine recover_agrees n d.reads_run h.calm ?_
  cases d with
  | cls name super methods =>
    rw [Declaration.symbols, List.cons_append, List.cons_append, List.append_assoc, List.cons_append,
      List.append_assoc] at h
    simp only [Declaration.symbols, List.length_cons, List.length_append] at hn
    have := reads_runClass (Routine.runMethods methods) name super
    rw [Declaration.run]
    refine .take h rfl ?_
    exact classDeclaration_agrees hdecl hd (by omega) (by simp) (h.advance (by simp))
  | function f =>
    rw [Declaration.symbols, List.cons_append] at h
    rw [Declaration.symbols, List.length_cons] at hn
    rw [Declaration.run]
    refine .skip h (by decide) (.take h rfl ?_)
    exact funDeclaration_agrees hdecl hd (by omega) (h.advance (by simp))
  | var name value =>
    rw [Declaration.symbols] at h hn
    obtain ⟨w, hw⟩ : ∃ w, variableSymbols name value = TokenKind.kwVar.symbol :: w := by
      cases value <;> exact ⟨_, rfl⟩
    have hvar := h
    rw [hw] at hvar
    rw [Declaration.run]
    refine .skip hvar (by decide) (.skip hvar (by decide) (.take hvar rfl ?_))
    have hrest : (advance c).2.Awaits ((variableSymbols name value).drop 1 ++ t :: more) := by
      rw [hw]
      exact hvar.advance (by simp)
    exact varDeclaration_agrees hd (by omega) (by simp) hrest
  | statement st =>
    obtain ⟨u, us, hu, -, hvar, hfun, hcls⟩ := st.symbols_eq_cons
    rw [Declaration.symbols] at h hn
    have hfirst := h
    rw [hu] at hfirst
    rw [Declaration.run]
    refine .skip hfirst hcls (.skip hfirst hfun (.skip hfirst hvar ?_))
    exact hstmt hd (by omega) h fun _ => ht

end Rules

/-- **The parsers of statements and declarations agree with compiling along the tree.** -/
theorem statement_declaration_agree (n : Nat) : StatementsAgree n ∧ DeclarationsAgree n := by
  induction n with
  | zero =>
    refine ⟨fun {s} _ _ _ _ hn => ?_, fun _ hn => absurd hn (Nat.not_lt_zero _)⟩
    obtain ⟨t, ts, h, -⟩ := s.symbols_eq_cons
    simp [h] at hn
  | succ n ih => exact ⟨statementRule_agrees ih.1 ih.2, declarationRule_agrees ih.1 ih.2⟩

end LoxMachine
