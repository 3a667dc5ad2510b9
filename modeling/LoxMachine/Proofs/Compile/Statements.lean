import LoxMachine.Proofs.Compile.Expressions

/-!
# Statements leave the stack as it was

There is a lemma for every rule of a statement. The rules take the parsers of what they contain as
arguments, so what these do is assumed: `Parsers` collects the assumptions, with the number of
tokens that may be left for them to hold.
-/

namespace LoxMachine

variable {c c₀ c₁ c₂ c' : Compiler} {s : Shape}

/-- A pop takes an ordinary value off the stack. -/
theorem Compiler.Writes.pop {op : Opcode} (h : c.Writes [op.toByte] c')
    (hop : op = .pop ∨ op = .print) : c.Moves c' (some (false :: s)) (some s) := by
  rcases hop with rfl | rfl <;>
    exact h.plain (n := 0) ⟨by simp, rfl⟩ (by simp [Opcode.needs, Opcode.pops])
      (by simp [Opcode.pops])

namespace Compile

set_option synthInstance.maxSize 4096

/-- What the parsers of expressions, statements and declarations do with few enough tokens left. -/
structure Parsers (expr stmt decl : Compile Unit) (n : Nat) : Prop where
  expr : ∀ c : Compiler, c.left < n → Does expr c fun _ c' => c.Pushes c'
  stmt : ∀ c : Compiler, c.Scoped → 2 * c.left + 1 < n →
    Does stmt c fun _ c' => c.Declares c' []
  decl : ∀ c : Compiler, c.Scoped → 2 * c.left + 2 < n →
    Does decl c fun _ c' => ∃ added, c.Declares c' added

section Rules

variable {expr stmt decl : Compile Unit} [Orderly expr] [Orderly stmt] [Orderly decl]
  {fuel n : Nat} (hp : Parsers expr stmt decl n)

include hp in
omit [expr.Orderly] [stmt.Orderly] in
theorem block_does (hscoped : c.Scoped) (hleft : 2 * c.left + 2 < n) :
    Does (block decl fuel) c fun _ c' => ∃ added, c.Declares c' added := by
  unfold block
  refine Does.bind (Q := fun _ c' => ∃ added, c.Declares c' added) ?_ fun _ c₁ _ _ h₁ => ?_
  · refine Does.mono (Does.loop
      (I := fun c' => (∃ added, c.Declares c' added) ∧ c'.left ≤ c.left)
      (J := fun c' => (∃ added, c.Declares c' added) ∧ c'.left ≤ c.left)
      (fun c' hI => ?_) (fun c' hJ => ?_) fuel ⟨⟨[], .refl c⟩, le_rfl⟩) fun _ _ _ _ h => h.1
    · refine (check_does .rightBrace).bind fun b c₁ _ _ h₁ => ?_
      obtain ⟨rfl, -⟩ := h₁
      refine (check_does .eof).bind fun b' c₂ _ _ h₂ => ?_
      obtain ⟨rfl, -⟩ := h₂
      exact .pure (by split <;> exact hI)
    · obtain ⟨⟨added, h⟩, hle⟩ := hJ
      refine (hp.decl c' (h.scoped hscoped) (by omega)).mono fun _ c₁ _ hl₁ ⟨added', h₁⟩ => ?_
      obtain ⟨all, hall, -⟩ := h.trans h₁
      exact ⟨⟨all, hall⟩, hl₁.left.trans hle⟩
  · obtain ⟨added, h₁⟩ := h₁
    refine (consume_does _ _).mono fun _ c₂ _ hl₂ h₂ => ?_
    obtain ⟨all, hall, -⟩ := h₁.trans (h₂.declares hl₂)
    exact ⟨all, hall⟩

include hp in
omit [expr.Orderly] [stmt.Orderly] [decl.Orderly] in
theorem printStatement_does (hleft : c.left < n) :
    Does (printStatement expr) c fun _ c' => c.Declares c' [] := by
  unfold printStatement
  refine (hp.expr c hleft).bind fun _ c₁ _ _ h₁ => ?_
  refine (consume_does _ _).bind fun _ c₂ _ hl₂ h₂ => ?_
  refine (emit_does .print).mono fun _ c₃ _ _ h₃ => ?_
  have hpushes := h₁.stays h₂ hl₂
  refine (hpushes.toWithin.trans h₃.toWithin).declares fun flags hf => ?_
  exact (hpushes.moves flags hf.settled_le).trans (h₃.pop (Or.inr rfl))

include hp in
omit [expr.Orderly] [stmt.Orderly] [decl.Orderly] in
theorem expressionStatement_does (hleft : c.left < n) :
    Does (expressionStatement expr) c fun _ c' => c.Declares c' [] := by
  unfold expressionStatement
  refine (hp.expr c hleft).bind fun _ c₁ _ _ h₁ => ?_
  refine (consume_does _ _).bind fun _ c₂ _ hl₂ h₂ => ?_
  refine (emit_does .pop).mono fun _ c₃ _ _ h₃ => ?_
  have hpushes := h₁.stays h₂ hl₂
  refine (hpushes.toWithin.trans h₃.toWithin).declares fun flags hf => ?_
  exact (hpushes.moves flags hf.settled_le).trans (h₃.pop (Or.inl rfl))

include hp in
omit [stmt.Orderly] [decl.Orderly] in
/-- After a return the code is not gone on with, so anything can be said of the stack there. -/
theorem returnStatement_does (hscoped : c.Scoped) (hleft : c.left < n) :
    Does (returnStatement expr) c fun _ c' => c.Declares c' [] := by
  unfold returnStatement
  refine .get (.ite (fun _ => .error_bind) fun _ => ?_)
  refine (accept_does .semicolon).bind fun b c₁ _ hl₁ h₁ => .ite (fun _ => ?_) fun _ => ?_
  · refine emitReturn_does.mono fun _ c₂ _ _ h₂ => ?_
    refine (h₁.1.toWithin.trans h₂.1).declares fun flags hf => ?_
    have hpos : 0 < flags.length := by
      rw [← hf.length_eq]
      exact hscoped.nonempty
    exact ((h₁.1.moves hl₁ _).trans (h₂.2 flags hpos)).weaken (by simp)
  · refine .get (.ite (fun _ => .error_bind) fun _ => ?_)
    refine (hp.expr c₁ (hl₁.left.trans_lt hleft)).bind fun _ c₂ _ _ h₂ => ?_
    refine (consume_does _ _).bind fun _ c₃ _ hl₃ h₃ => ?_
    refine (emit_does .ret).mono fun _ c₄ _ _ h₄ => ?_
    have hpushes := h₁.1.pushes hl₁ (h₂.stays h₃ hl₃)
    refine (hpushes.toWithin.trans h₄.toWithin).declares fun flags hf => ?_
    exact ((hpushes.moves flags hf.settled_le).trans (h₄.ret (by simp))).weaken (by simp)

include hp in
omit [decl.Orderly] in
/-- The condition is on the stack at the start of both branches. -/
theorem ifStatement_does (hscoped : c.Scoped) (hleft : 2 * c.left + 1 < n) :
    Does (ifStatement expr stmt) c fun _ c' => c.Declares c' [] := by
  unfold ifStatement
  refine (consume_does _ _).bind fun _ c₁ _ hl₁ h₁ => ?_
  refine (hp.expr c₁ (by have := hl₁.left; omega)).bind fun _ c₂ _ hl₂ h₂ => ?_
  refine (consume_does _ _).bind fun _ c₃ _ hl₃ h₃ => ?_
  refine (emitJump_does .jumpIfFalse).bind fun o c₄ _ hl₄ h₄ => ?_
  obtain ⟨rfl, h₄⟩ := h₄
  refine (emit_does .pop).bind fun _ c₅ _ hl₅ h₅ => ?_
  have hl₀₅ := (((hl₁.trans hl₂).trans hl₃).trans hl₄).trans hl₅
  have hpushes : c.Pushes c₃ := h₁.pushes hl₁ (h₂.stays h₃ hl₃)
  have hgrows₅ : c.Grows c₅ := (hpushes.toWithin.trans (h₄.toWithin.trans h₅.toWithin)).grows
  refine (hp.stmt c₅ (hgrows₅.scoped hscoped) (by have := hl₀₅.left; omega)).bind
    fun _ c₆ _ hl₆ h₆ => ?_
  refine (emitJump_does .jump).bind fun o c₇ _ hl₇ h₇ => ?_
  obtain ⟨rfl, h₇⟩ := h₇
  refine (patchJump_does c₃.size).bind fun _ c₈ _ hl₈ h₈ => ?_
  refine (emit_does .pop).bind fun _ c₉ _ hl₉ h₉ => ?_
  refine (accept_does .kwElse).bind fun b c₁₀ _ hl₁₀ h₁₀ => ?_
  have hl₀₁₀ := ((((hl₀₅.trans hl₆).trans hl₇).trans hl₈).trans hl₉).trans hl₁₀
  have hwithin : c₆.Within c₁₀ :=
    ((h₇.toWithin.trans h₈.toWithin).trans h₉.toWithin).trans h₁₀.1.toWithin
  have hgrows₁₀ : c.Grows c₁₀ := (hgrows₅.trans h₆.grows).trans hwithin.grows
  -- what the two ways to the end have in common
  have hlaid : ∀ flags sketch, Covers c₁₀.draft.locals flags → c.Laid sketch (some flags) →
      c₁₀.Laid (sketch.hole ⟨c₆.size, flags⟩) (some flags) := by
    intro flags sketch hf hlaid
    have hsettled := (hf.of_grow hgrows₁₀.locals).settled_le
    have honFalse := h₄.jumpIfFalse (hpushes.moves flags hsettled sketch hlaid) (by simp)
    have hthen := h₆.moves flags (by rw [← hwithin.locals]; exact hf) _
      (h₅.pop (Or.inl rfl) _ honFalse)
    have hatEnd : c₇.Laid _ (some (false :: flags)) := (h₇.jump hthen).weaken (by simp)
    have helse := h₉.pop (Or.inl rfl) _ (h₈.previous hatEnd (.refl _))
    exact h₁₀.1.moves hl₁₀ _ _ helse
  refine .ite (fun _ => ?_) fun _ => ?_
  · refine (hp.stmt c₁₀ (hgrows₁₀.scoped hscoped) (by have := hl₀₁₀.left; omega)).bind
      fun _ c₁₁ _ _ h₁₁ => ?_
    refine (patchJump_does c₆.size).mono fun _ c₁₂ _ _ h₁₂ => ?_
    refine ((hgrows₁₀.trans h₁₁.grows).trans h₁₂.toWithin.grows).declares
      fun flags hf sketch hl => ?_
    rw [h₁₂.locals] at hf
    have helse := h₁₁.moves flags hf _ (hlaid flags sketch (hf.of_grow h₁₁.grows.locals) hl)
    exact h₁₂.last helse (.refl _)
  · refine (patchJump_does c₆.size).mono fun _ c₁₁ _ _ h₁₁ => ?_
    refine (hgrows₁₀.trans h₁₁.toWithin.grows).declares fun flags hf sketch hl => ?_
    rw [h₁₁.locals] at hf
    exact h₁₁.last (hlaid flags sketch hf hl) (.refl _)

include hp in
omit [decl.Orderly] in
theorem whileStatement_does (hscoped : c.Scoped) (hleft : 2 * c.left + 1 < n) :
    Does (whileStatement expr stmt) c fun _ c' => c.Declares c' [] := by
  unfold whileStatement
  refine codeSize_does.bind fun start c₀ _ _ h₀ => ?_
  obtain ⟨rfl, rfl⟩ := h₀
  refine (consume_does _ _).bind fun _ c₁ _ hl₁ h₁ => ?_
  refine (hp.expr c₁ (by have := hl₁.left; omega)).bind fun _ c₂ _ hl₂ h₂ => ?_
  refine (consume_does _ _).bind fun _ c₃ _ hl₃ h₃ => ?_
  refine (emitJump_does .jumpIfFalse).bind fun o c₄ _ hl₄ h₄ => ?_
  obtain ⟨rfl, h₄⟩ := h₄
  refine (emit_does .pop).bind fun _ c₅ _ hl₅ h₅ => ?_
  have hl₀₅ := (((hl₁.trans hl₂).trans hl₃).trans hl₄).trans hl₅
  have hpushes : c₀.Pushes c₃ := h₁.pushes hl₁ (h₂.stays h₃ hl₃)
  have hgrows₅ : c₀.Grows c₅ := (hpushes.toWithin.trans (h₄.toWithin.trans h₅.toWithin)).grows
  refine (hp.stmt c₅ (hgrows₅.scoped hscoped) (by have := hl₀₅.left; omega)).bind
    fun _ c₆ _ _ h₆ => ?_
  refine (emitLoop_does c₀.size).bind fun _ c₇ _ _ h₇ => ?_
  refine (patchJump_does c₃.size).bind fun _ c₈ _ _ h₈ => ?_
  refine (emit_does .pop).mono fun _ c₉ _ _ h₉ => ?_
  have hwithin : c₆.Within c₉ := (h₇.1.trans h₈.toWithin).trans h₉.toWithin
  have hgrows : c₀.Grows c₉ := (hgrows₅.trans h₆.grows).trans hwithin.grows
  refine hgrows.declares fun flags hf sketch hlaid => ?_
  have hsettled := (hf.of_grow hgrows.locals).settled_le
  rw [hwithin.locals] at hf
  have honFalse := h₄.jumpIfFalse (hpushes.moves flags hsettled _ hlaid.label) (by simp)
  have hbody := h₆.moves flags hf _ (h₅.pop (Or.inl rfl) _ honFalse)
  have hback : c₇.Laid _ (some (false :: flags)) :=
    (h₇.2 _ flags flags hbody List.mem_cons_self (.refl _)).weaken (by simp)
  exact (h₉.pop (Or.inl rfl) _ (h₈.last hback (.refl _))).unlabel

/-! ## Variables -/

include hp in
omit [stmt.Orderly] [decl.Orderly] in
theorem varDeclaration_does (hleft : c.left < n) :
    Does (varDeclaration expr) c fun _ c' => ∃ added, c.Declares c' added := by
  unfold varDeclaration
  refine (parseVariable_does _).bind fun global c₁ _ hl₁ h₁ => ?_
  refine (accept_does .equal).bind fun b c₂ _ hl₂ h₂ => ?_
  have hend : ∀ c₃ : Compiler, c₂.Later c₃ → c₂.Pushes c₃ → Does (do
      consume .semicolon .semicolonAfterVariable
      defineVariable global) c₃ fun _ c' => ∃ added, c.Declares c' added := by
    intro c₃ hl₃ h₃
    refine (consume_does _ _).bind fun _ c₄ _ hl₄ h₄ => defineVariable_does ?_
    have hpushes := h₂.1.pushes hl₂ (h₃.stays h₄ hl₄)
    refine ⟨hpushes.arity.trans h₁.arity, hpushes.depth.trans h₁.depth,
      hpushes.classes.trans h₁.classes, fun hpos => ?_, fun h0 => ?_⟩
    · obtain ⟨name, hlocals⟩ := h₁.slot hpos
      refine ⟨_, _, hpushes.locals.trans hlocals, .refl _, fun b flags hf => ?_⟩
      cases hf with
      | cons hb hf =>
        refine (hl₁.moves h₁.code _).trans (Compiler.Moves.weaken (hpushes.moves flags ?_) ?_)
        · rw [hlocals, settled_cons_of_isNone _ rfl]
          exact Covers.settled_le hf
        · rintro _ ⟨⟩
          exact .cons_false b (.refl flags)
    · obtain ⟨hlocals, hconstant⟩ := h₁.global h0
      refine ⟨by rw [hpushes.locals, hlocals]; exact .refl _,
        ((hl₂.trans hl₃).trans hl₄).pool.constant hconstant, fun flags hf => ?_⟩
      rw [hpushes.locals] at hf
      exact (hl₁.moves h₁.code _).trans (hpushes.moves flags hf.settled_le)
  refine .ite (fun _ => ?_) fun _ => ?_
  · refine (hp.expr c₂ ((hl₁.trans hl₂).left.trans_lt hleft)).bind fun _ c₃ _ hl₃ h₃ => ?_
    exact hend c₃ hl₃ h₃
  · exact (emit_pushes (Or.inl rfl)).bind fun _ c₃ _ hl₃ h₃ => hend c₃ hl₃ h₃

/-! ## Loops with clauses -/

include hp in
omit [stmt.Orderly] [decl.Orderly] in
theorem forInitializer_does (hleft : c.left < n) :
    Does (forInitializer expr) c fun _ c' => ∃ added, c.Declares c' added := by
  unfold forInitializer
  refine (accept_does .semicolon).bind fun b c₁ _ hl₁ h₁ => .ite (fun _ => ?_) fun _ => ?_
  · exact .pure ⟨[], h₁.1.declares hl₁⟩
  refine (accept_does .kwVar).bind fun b c₂ _ hl₂ h₂ => ?_
  have hstays := (h₁.1.trans h₂.1).declares (hl₁.trans hl₂)
  have hleft₂ := (hl₁.trans hl₂).left.trans_lt hleft
  refine .ite (fun _ => ?_) fun _ => ?_
  · refine (varDeclaration_does hp hleft₂).mono fun _ c₃ _ _ ⟨added, h₃⟩ => ?_
    obtain ⟨all, hall, -⟩ := hstays.trans h₃
    exact ⟨all, hall⟩
  · refine (expressionStatement_does hp hleft₂).mono fun _ c₃ _ _ h₃ => ?_
    exact ⟨[], hstays.trans_nil h₃⟩

include hp in
omit [stmt.Orderly] [decl.Orderly] in
/-- The jump that leaves the loop is open, with the value of the condition on the stack. -/
theorem forCondition_does (hleft : c.left < n) :
    Does (forCondition expr) c fun leave c' => c.Within c' ∧
      ((leave = none ∧ ∀ s, c.Moves c' (some s) (some s)) ∨
        ∃ o, leave = some (o + 1) ∧ ∀ (s : Shape) (sketch : Sketch),
          settled c.draft.locals ≤ s.length → c.Laid sketch (some s) →
          c'.Laid (sketch.hole ⟨o, false :: s⟩) (some s)) := by
  unfold forCondition
  refine (accept_does .semicolon).bind fun b c₁ _ hl₁ h₁ => .ite (fun _ => ?_) fun _ => ?_
  · exact .pure ⟨h₁.1.toWithin, Or.inl ⟨rfl, fun s => h₁.1.moves hl₁ _⟩⟩
  refine (hp.expr c₁ (hl₁.left.trans_lt hleft)).bind fun _ c₂ _ _ h₂ => ?_
  refine (consume_does _ _).bind fun _ c₃ _ hl₃ h₃ => ?_
  refine (emitJump_does .jumpIfFalse).bind fun o c₄ _ _ h₄ => ?_
  obtain ⟨rfl, h₄⟩ := h₄
  refine (emit_does .pop).bind fun _ c₅ _ _ h₅ => .pure ?_
  have hpushes := h₁.1.pushes hl₁ (h₂.stays h₃ hl₃)
  refine ⟨hpushes.toWithin.trans (h₄.toWithin.trans h₅.toWithin), Or.inr ⟨c₃.size, rfl, ?_⟩⟩
  intro s sketch hs hlaid
  exact h₅.pop (Or.inl rfl) _ (h₄.jumpIfFalse (hpushes.moves s hs _ hlaid) (by simp))

include hp in
omit [stmt.Orderly] [decl.Orderly] in
/-- The body can go back to the increment, or to the start if there is none. -/
theorem forIncrement_does (start : Nat) (hleft : c.left < n) :
    Does (forIncrement expr start) c fun back c' => c.Within c' ∧
      ∀ (s : Shape) (sketch : Sketch), settled c.draft.locals ≤ s.length →
        ⟨start, s⟩ ∈ sketch.labels → c.Laid sketch (some s) →
        c'.Laid (sketch.label ⟨back, s⟩) (some s) := by
  unfold forIncrement
  refine (accept_does .rightParen).bind fun b c₁ _ hl₁ h₁ => .ite (fun _ => ?_) fun _ => ?_
  · exact .pure ⟨h₁.1.toWithin, fun s sketch _ hlabel hlaid =>
      (h₁.1.moves hl₁ _ _ hlaid).relabel hlabel⟩
  refine (emitJump_does .jump).bind fun o c₂ _ hl₂ h₂ => ?_
  obtain ⟨rfl, h₂⟩ := h₂
  refine codeSize_does.bind fun back c₃ _ _ h₃ => ?_
  obtain ⟨rfl, rfl⟩ := h₃
  refine (hp.expr c₃ ((hl₁.trans hl₂).left.trans_lt hleft)).bind fun _ c₄ _ _ h₄ => ?_
  refine (emit_does .pop).bind fun _ c₅ _ _ h₅ => ?_
  refine (consume_does _ _).bind fun _ c₆ _ hl₆ h₆ => ?_
  refine (emitLoop_does start).bind fun _ c₇ _ _ h₇ => ?_
  refine (patchJump_does c₁.size).bind fun _ c₈ _ _ h₈ => .pure ?_
  have hbefore := h₁.1.toWithin.trans h₂.toWithin
  refine ⟨(((hbefore.trans h₄.toWithin).trans (h₅.toWithin.trans h₆.toWithin)).trans h₇.1).trans
    h₈.toWithin, fun s sketch hs hlabel hlaid => ?_⟩
  -- the increment is jumped over at first
  have htoBody : c₃.Laid _ (some s) := (h₂.jump (h₁.1.moves hl₁ _ _ hlaid)).weaken (by simp)
  have hincrement := h₄.moves s (by rw [hbefore.locals]; exact hs) _ htoBody.label
  have hback := h₇.2 _ s s (h₆.moves hl₆ _ _ (h₅.pop (Or.inl rfl) _ hincrement))
    (List.mem_cons_of_mem _ hlabel) (.refl s)
  have hhole : c₇.Laid ((sketch.label ⟨c₃.size, s⟩).hole ⟨c₁.size, s⟩) (some s) :=
    hback.weaken (by simp)
  exact h₈.last hhole (.refl s)

include hp in
omit [decl.Orderly] in
theorem forStatement_does (hscoped : c.Scoped) (hleft : 2 * c.left + 1 < n) :
    Does (forStatement expr stmt) c fun _ c' => c.Declares c' [] := by
  have := orderly_forEnd
  unfold forStatement
  dsimp only
  refine beginScope_does.bind fun _ c₀ _ hl₀ h₀ => ?_
  subst h₀
  refine (consume_does _ _).bind fun _ c₁ _ hl₁ h₁ => ?_
  have hl₀₁ := hl₀.trans hl₁
  refine (forInitializer_does hp (by have := hl₀₁.left; omega)).bind
    fun _ c₂ _ hl₂ ⟨added, h₂⟩ => ?_
  obtain ⟨added', hinit, -⟩ := (h₁.declares hl₁).trans h₂
  have hscoped₂ := hinit.scoped hscoped.enter
  have hl₀₂ := hl₀₁.trans hl₂
  refine codeSize_does.bind fun start c₃ _ _ h₃ => ?_
  obtain ⟨rfl, rfl⟩ := h₃
  refine (forCondition_does hp (by have := hl₀₂.left; omega)).bind fun leave c₄ _ hl₄ h₄ => ?_
  have hl₀₄ := hl₀₂.trans hl₄
  refine (forIncrement_does hp c₃.size (by have := hl₀₄.left; omega)).bind
    fun back c₅ _ hl₅ h₅ => ?_
  have hl₀₅ := hl₀₄.trans hl₅
  have hgrows₅ : c₃.Grows c₅ := (h₄.1.trans h₅.1).grows
  refine (hp.stmt c₅ (hgrows₅.scoped hscoped₂) (by have := hl₀₅.left; omega)).bind
    fun _ c₆ _ _ h₆ => ?_
  refine (emitLoop_does back).bind fun _ c₇ _ _ h₇ => ?_
  have hgrows₇ : c₃.Grows c₇ := (hgrows₅.trans h₆.grows).trans h₇.1.grows
  -- from the increment to the end of the loop, where the start is still a label
  have hloop : ∀ flags sketch, Covers c₇.draft.locals flags →
      ⟨c₃.size, flags⟩ ∈ sketch.labels → c₄.Laid sketch (some flags) → c₇.Laid sketch none := by
    intro flags sketch hf hlabel hlaid
    have hsettled := (hf.of_grow hgrows₇.locals).settled_le
    rw [h₇.1.locals] at hf
    have hincrement := h₅.2 flags sketch (by rw [h₄.1.locals]; exact hsettled) hlabel hlaid
    have hbody := h₆.moves flags hf _ hincrement
    exact (h₇.2 _ flags flags hbody List.mem_cons_self (.refl _)).unlabel
  have hend : ∀ c₈ : Compiler, c₃.Declares c₈ [] →
      Does endScope c₈ fun _ c' => c.Declares c' [] := by
    intro c₈ h₈
    obtain ⟨all, hall, -⟩ := hinit.trans h₈
    exact endScope_does hscoped hall
  rcases h₄.2 with ⟨rfl, hmoves⟩ | ⟨o, rfl, hjump⟩
  · refine hend c₇ (hgrows₇.declares fun flags hf sketch hlaid => ?_)
    have hstart := hmoves flags _ hlaid.label
    have hback : c₇.Laid _ (some flags) :=
      (hloop flags _ hf List.mem_cons_self hstart).weaken (by simp)
    exact hback.unlabel
  · refine (patchJump_does o).bind fun _ c₈ _ _ h₈ => ?_
    refine (emit_does .pop).bind fun _ c₉ _ _ h₉ => ?_
    have hwithin := h₈.toWithin.trans h₉.toWithin
    refine hend c₉ ((hgrows₇.trans hwithin.grows).declares fun flags hf sketch hlaid => ?_)
    rw [hwithin.locals] at hf
    have hstart := hjump flags _ (hf.of_grow hgrows₇.locals).settled_le hlaid.label
    have hback : c₇.Laid _ (some (false :: flags)) :=
      (hloop flags _ hf List.mem_cons_self hstart).weaken (by simp)
    exact (h₉.pop (Or.inl rfl) _ (h₈.last hback (.refl _))).unlabel

/-! ## The rule of a statement -/

include hp in
theorem statementRule_does (hscoped : c.Scoped) (hleft : 2 * c.left < n) :
    Does (statementRule expr stmt decl fuel) c fun _ c' => c.Declares c' [] := by
  -- what is read before the rule takes a token, which leaves enough steps for the rule
  have haccept : ∀ (kind : TokenKind) (c₁ : Compiler), c.Stays c₁ → c.Later c₁ → kind ≠ .eof →
      Does (accept kind) c₁ fun b c₂ => c.Stays c₂ ∧ c.Later c₂ ∧
        (b = true → 2 * c₂.left + 2 < n) := by
    intro kind c₁ h₁ hl₁ hkind
    refine (accept_does kind).mono fun b c₂ _ hl₂ h₂ => ⟨h₁.trans h₂.1, hl₁.trans hl₂, fun hb => ?_⟩
    have hlt := h₂.2 hb hkind
    have hle := hl₁.left
    omega
  have hrule : ∀ {x : Compile Unit} (c₁ : Compiler), c.Stays c₁ → c.Later c₁ →
      (Does x c₁ fun _ c' => c₁.Declares c' []) → Does x c₁ fun _ c' => c.Declares c' [] :=
    fun c₁ h₁ hl₁ hx => hx.mono fun _ c₂ _ _ h₂ => (h₁.declares hl₁).trans_nil h₂
  have hscoped' : ∀ c₁ : Compiler, c.Stays c₁ → c₁.Scoped := fun c₁ h₁ =>
    h₁.toWithin.grows.scoped hscoped
  unfold statementRule
  refine (haccept .kwPrint c (.refl c) (.refl c) (by simp)).bind fun b c₁ _ _ ⟨h₁, hl₁, ht₁⟩ =>
    .ite (fun hb => ?_) fun _ => ?_
  · have := ht₁ hb
    exact hrule c₁ h₁ hl₁ (printStatement_does hp (by omega))
  refine (haccept .kwFor c₁ h₁ hl₁ (by simp)).bind fun b c₂ _ _ ⟨h₂, hl₂, ht₂⟩ =>
    .ite (fun hb => ?_) fun _ => ?_
  · have := ht₂ hb
    exact hrule c₂ h₂ hl₂ (forStatement_does hp (hscoped' c₂ h₂) (by omega))
  refine (haccept .kwIf c₂ h₂ hl₂ (by simp)).bind fun b c₃ _ _ ⟨h₃, hl₃, ht₃⟩ =>
    .ite (fun hb => ?_) fun _ => ?_
  · have := ht₃ hb
    exact hrule c₃ h₃ hl₃ (ifStatement_does hp (hscoped' c₃ h₃) (by omega))
  refine (haccept .kwReturn c₃ h₃ hl₃ (by simp)).bind fun b c₄ _ _ ⟨h₄, hl₄, ht₄⟩ =>
    .ite (fun hb => ?_) fun _ => ?_
  · have := ht₄ hb
    exact hrule c₄ h₄ hl₄ (returnStatement_does hp (hscoped' c₄ h₄) (by omega))
  refine (haccept .kwWhile c₄ h₄ hl₄ (by simp)).bind fun b c₅ _ _ ⟨h₅, hl₅, ht₅⟩ =>
    .ite (fun hb => ?_) fun _ => ?_
  · have := ht₅ hb
    exact hrule c₅ h₅ hl₅ (whileStatement_does hp (hscoped' c₅ h₅) (by omega))
  refine (haccept .leftBrace c₅ h₅ hl₅ (by simp)).bind fun b c₆ _ _ ⟨h₆, hl₆, ht₆⟩ =>
    .ite (fun hb => ?_) fun _ => ?_
  · have := ht₆ hb
    refine hrule c₆ h₆ hl₆ ?_
    refine beginScope_does.bind fun _ c₇ _ hl₇ h₇ => ?_
    subst h₇
    refine (block_does hp (hscoped' c₆ h₆).enter (by have := hl₇.left; omega)).bind
      fun _ c₈ _ _ ⟨added, h₈⟩ => ?_
    exact endScope_does (hscoped' c₆ h₆) h₈
  · have hle := hl₆.left
    exact hrule c₆ h₆ hl₆ (expressionStatement_does hp (by omega))

end Rules

end Compile

end LoxMachine
