import LoxMachine.Proofs.Compile.Variables

/-!
# Scopes and declarations

A statement leaves the stack as it was and a declaration adds the variables it declares. Which of
the variables are captured is known only at the end of their scope, so what is said of the code in
a scope holds for every choice of marks that covers the variables captured in the end.

* `Covers` relates variables to the shape of the stack that holds them.
* `Compiler.Declares c c' added`: the variables `added` have been declared, and code that comes with
  a value for each variable in scope goes on with one for each variable in scope now.
* `Compiler.Valued`: a variable has been declared, and its value is on top of the stack;
  `defineVariable_does` ends its declaration.
* `endScope_does`: what happens in a scope is a statement.
-/

namespace LoxMachine

variable {c c₀ c₁ c₂ c' : Compiler} {ls ls' added added' : List Local} {l : Local} {flags s : Shape}

/-! ## Marks for variables -/

/-- There is a slot for each variable, and it is marked if the variable is captured. -/
def Covers (ls : List Local) (flags : Shape) : Prop :=
  List.Forall₂ (fun l b => l.captured = true → b = true) ls flags

theorem Covers.length_eq (h : Covers ls flags) : ls.length = flags.length :=
  List.Forall₂.length_eq h

theorem Covers.settled_le (h : Covers ls flags) : settled ls ≤ flags.length :=
  (LoxMachine.settled_le ls).trans h.length_eq.le

theorem Covers.of_grow (h : Covers ls' flags) (hgrow : LocalsGrow ls ls') : Covers ls flags := by
  induction hgrow generalizing flags with
  | nil => exact h
  | cons hl _ ih =>
    cases h with
    | cons hb h => exact .cons (hb ∘ hl.captured) (ih h)

theorem Covers.drop (h : Covers (ls ++ ls') flags) : Covers ls' (flags.drop ls.length) := by
  have hdrop := List.forall₂_drop ls.length h
  rwa [List.drop_left] at hdrop

theorem covers_append (ls : List Local) (h : Covers ls' flags) :
    Covers (ls ++ ls') (ls.map (·.captured) ++ flags) := by
  induction ls with
  | nil => exact h
  | cons l ls ih => exact .cons id ih

/-- A captured variable has a marked slot. -/
theorem Covers.slot? (h : Covers ls flags) {i : Nat} (hget : ls.reverse[i]? = some l)
    (hl : l.captured = true) : flags.slot? i = some true := by
  have hr : List.Forall₂ (fun (l : Local) b => l.captured = true → b = true) ls.reverse
      flags.reverse := List.forall₂_reverse_iff.2 h
  obtain ⟨hlt, rfl⟩ := List.getElem?_eq_some_iff.1 hget
  have hlt' : i < flags.reverse.length := by rw [← List.Forall₂.length_eq hr]; exact hlt
  exact List.getElem?_eq_some_iff.2 ⟨hlt', (List.forall₂_iff_get.1 hr).2 i hlt hlt' hl⟩

/-- It has one also if there are values above. -/
theorem Covers.slot?_above (h : Covers ls flags) {i : Nat} (hget : ls.reverse[i]? = some l)
    (hl : l.captured = true) (above : Shape) : Shape.slot? (above ++ flags) i = some true := by
  have hlt := (List.getElem?_eq_some_iff.1 hget).1
  rw [List.length_reverse, h.length_eq] at hlt
  rw [Shape.slot?_append _ _ _ hlt]
  exact h.slot? hget hl

/-! ## Declarations -/

namespace Compiler

/-- Every variable is initialized, and belongs to a scope that is open. There is one at least, that
of the receiver. -/
structure Scoped (c : Compiler) : Prop where
  nonempty : 0 < c.draft.locals.length
  opened : ∀ l ∈ c.draft.locals, ∃ k, l.depth = some k ∧ k ≤ c.draft.depth

/-- The variables `added` have been declared in the innermost scope. -/
structure Declares (c c' : Compiler) (added : List Local) : Prop where
  arity : c'.draft.arity = c.draft.arity
  depth : c'.draft.depth = c.draft.depth
  classes : c'.classes = c.classes
  locals : ∃ old, c'.draft.locals = added ++ old ∧ LocalsGrow c.draft.locals old
  fresh : ∀ l ∈ added, l.depth = some c.draft.depth
  moves : ∀ flags, Covers c'.draft.locals flags →
    c.Moves c' (some (flags.drop added.length)) (some flags)

/-- A statement that captures nothing. -/
theorem Within.declares (h : c.Within c')
    (hmoves : ∀ flags, Covers c.draft.locals flags → c.Moves c' (some flags) (some flags)) :
    c.Declares c' [] :=
  ⟨h.arity, h.depth, h.classes, ⟨_, h.locals, .refl _⟩, by simp, fun flags hf =>
    hmoves flags (by rw [← h.locals]; exact hf)⟩

theorem Stays.declares (h : c.Stays c') (hl : c.Later c') : c.Declares c' [] :=
  h.toWithin.declares fun flags _ => h.moves hl (some flags)

theorem LocalsGrow.append_left (h : LocalsGrow (ls ++ ls') added) :
    ∃ as bs, added = as ++ bs ∧ as.length = ls.length ∧ LocalsGrow ls as ∧ LocalsGrow ls' bs := by
  induction ls generalizing added with
  | nil => exact ⟨[], added, rfl, rfl, .nil, h⟩
  | cons l ls ih =>
    cases h with
    | cons hl h =>
      obtain ⟨as, bs, rfl, hlength, has, hbs⟩ := ih h
      exact ⟨_ :: as, bs, rfl, by simp [hlength], .cons hl has, hbs⟩

/-- One declaration after another. -/
theorem Declares.trans (h : c.Declares c₁ added) (h' : c₁.Declares c₂ added') :
    ∃ all, c.Declares c₂ all ∧ all.length = added'.length + added.length := by
  obtain ⟨old, hlocals, hgrow⟩ := h.locals
  obtain ⟨old', hlocals', hgrow'⟩ := h'.locals
  rw [hlocals] at hgrow'
  obtain ⟨as, bs, rfl, hlength, has, hbs⟩ := LocalsGrow.append_left hgrow'
  have hcovers : ∀ flags, Covers c₂.draft.locals flags →
      Covers c₁.draft.locals (flags.drop added'.length) := by
    intro flags hf
    rw [hlocals'] at hf
    rw [hlocals]
    exact hf.drop.of_grow hgrow'
  refine ⟨added' ++ as, ⟨h'.arity.trans h.arity, h'.depth.trans h.depth,
    h'.classes.trans h.classes, ⟨bs, by simp [hlocals'], LocalsGrow.trans hgrow hbs⟩,
    fun l hl => ?_, fun flags hf => ?_⟩, by simp [hlength]⟩
  · rcases List.mem_append.1 hl with hl | hl
    · rw [← h.depth]
      exact h'.fresh l hl
    · obtain ⟨i, hi, rfl⟩ := List.mem_iff_getElem.1 hl
      have hgrows := (List.forall₂_iff_get.1 has).2 i (by rw [← hlength]; exact hi) hi
      exact hgrows.depth.trans (h.fresh _ (List.getElem_mem _))
  · have hdrop : flags.drop (added' ++ as).length =
        (flags.drop added'.length).drop added.length := by
      simp [hlength]
    rw [hdrop]
    exact (h.moves _ (hcovers flags hf)).trans (h'.moves flags hf)

/-- One statement after another. -/
theorem Declares.trans_nil (h : c.Declares c₁ []) (h' : c₁.Declares c₂ []) : c.Declares c₂ [] := by
  obtain ⟨all, hall, hlength⟩ := h.trans h'
  rwa [List.length_eq_zero_iff.1 hlength] at hall

theorem Declares.refl (c : Compiler) : c.Declares c [] :=
  (Stays.refl c).declares (.refl c)

theorem Declares.scoped (h : c.Declares c' added) (hc : c.Scoped) : c'.Scoped := by
  obtain ⟨old, hlocals, hgrow⟩ := h.locals
  have hlength := List.Forall₂.length_eq hgrow
  refine ⟨?_, fun l hl => ?_⟩
  · have := hc.nonempty
    rw [hlocals, List.length_append]
    omega
  rw [hlocals] at hl
  rw [h.depth]
  rcases List.mem_append.1 hl with hl | hl
  · exact ⟨_, h.fresh l hl, le_rfl⟩
  · obtain ⟨i, hi, rfl⟩ := List.mem_iff_getElem.1 hl
    have hgrows := (List.forall₂_iff_get.1 hgrow).2 i (by omega) hi
    obtain ⟨k, hk, hle⟩ := hc.opened _ (List.getElem_mem (by omega : i < c.draft.locals.length))
    exact ⟨k, hgrows.depth.trans hk, hle⟩

/-- The variables in scope have not changed, except that they may have been captured. -/
structure Grows (c c' : Compiler) : Prop where
  arity : c'.draft.arity = c.draft.arity
  depth : c'.draft.depth = c.draft.depth
  classes : c'.classes = c.classes
  locals : LocalsGrow c.draft.locals c'.draft.locals

theorem Within.grows (h : c.Within c') : c.Grows c' :=
  ⟨h.arity, h.depth, h.classes, by rw [h.locals]; exact .refl _⟩

theorem Grows.trans (h : c.Grows c₁) (h' : c₁.Grows c₂) : c.Grows c₂ :=
  ⟨h'.arity.trans h.arity, h'.depth.trans h.depth, h'.classes.trans h.classes,
    h.locals.trans h'.locals⟩

theorem Declares.grows (h : c.Declares c' []) : c.Grows c' := by
  obtain ⟨old, hlocals, hgrow⟩ := h.locals
  exact ⟨h.arity, h.depth, h.classes, by rw [hlocals]; exact hgrow⟩

theorem Grows.declares (h : c.Grows c')
    (hmoves : ∀ flags, Covers c'.draft.locals flags → c.Moves c' (some flags) (some flags)) :
    c.Declares c' [] :=
  ⟨h.arity, h.depth, h.classes, ⟨_, rfl, h.locals⟩, by simp, hmoves⟩

theorem Grows.scoped (h : c.Grows c') (hc : c.Scoped) : c'.Scoped := by
  have hlength := List.Forall₂.length_eq h.locals
  refine ⟨by rw [← hlength]; exact hc.nonempty, fun l hl => ?_⟩
  obtain ⟨i, hi, rfl⟩ := List.mem_iff_getElem.1 hl
  have hgrows := (List.forall₂_iff_get.1 h.locals).2 i (by omega) hi
  obtain ⟨k, hk, hle⟩ := hc.opened _ (List.getElem_mem (by omega : i < c.draft.locals.length))
  exact ⟨k, hgrows.depth.trans hk, by rw [h.depth]; exact hle⟩

end Compiler

/-! ## Making variables -/

/-- The state in which a scope has been opened. -/
def Compiler.opened (c : Compiler) : Compiler :=
  { c with draft := { c.draft with depth := c.draft.depth + 1 } }

theorem Compiler.Scoped.enter (h : c.Scoped) : c.opened.Scoped := by
  refine ⟨h.nonempty, fun l hl => ?_⟩
  obtain ⟨k, hk, hle⟩ := h.opened l hl
  exact ⟨k, hk, Nat.le_succ_of_le hle⟩

namespace Compile

theorem beginScope_does : Does beginScope c fun _ c' => c' = c.opened := by
  intro hc
  exact Does.mono (modifyDraft_does rfl rfl rfl rfl rfl hc.draft.locals_length)
    (fun _ _ _ _ h => h.1) hc

/-- A variable is declared whose initializer has not ended. -/
theorem addLocal_does (name : String) : Does (addLocal name) c fun _ c' =>
    c' = { c with draft := { c.draft with
      locals := { name, depth := none } :: c.draft.locals } } := by
  intro hc
  unfold addLocal
  refine Does.get (.ite (fun _ => .error) fun hne => ?_) hc
  refine Does.mono (modifyDraft_does rfl rfl rfl rfl rfl ?_) fun _ _ _ _ h => h.1
  exact Nat.lt_of_le_of_ne hc.draft.locals_length hne

end Compile

/-- A variable is being declared: a local one is in scope, but has no value; a global one has a
constant for its name. -/
structure Compiler.Opens (c c' : Compiler) (global : UInt8) : Prop where
  arity : c'.draft.arity = c.draft.arity
  depth : c'.draft.depth = c.draft.depth
  classes : c'.classes = c.classes
  code : c'.draft.chunk.written = c.draft.chunk.written
  slot : 0 < c.draft.depth →
    ∃ name, c'.draft.locals = { name, depth := none } :: c.draft.locals
  global : c.draft.depth = 0 →
    c'.draft.locals = c.draft.locals ∧ c'.pool.constants[global.toNat]? = some .string

namespace Compile

theorem declareVariable_does : Does declareVariable c fun _ c' =>
    c'.draft.arity = c.draft.arity ∧ c'.draft.depth = c.draft.depth ∧ c'.classes = c.classes ∧
      c'.draft.chunk.written = c.draft.chunk.written ∧ c'.pool = c.pool ∧
      (0 < c.draft.depth →
        ∃ name, c'.draft.locals = { name, depth := none } :: c.draft.locals) ∧
      (c.draft.depth = 0 → c'.draft.locals = c.draft.locals) := by
  unfold declareVariable
  refine .get (.ite (fun hpos => ?_) fun hzero => .pure ⟨rfl, rfl, rfl, rfl, rfl, fun h =>
    absurd h hzero, fun _ => rfl⟩)
  refine lexeme_does.bind fun name c₁ _ _ h => ?_
  obtain rfl := h
  refine .ite (fun _ => .error_bind) fun _ => ?_
  refine (addLocal_does name).mono fun _ c₂ _ _ h => ?_
  subst h
  exact ⟨rfl, rfl, rfl, rfl, rfl, fun _ => ⟨name, rfl⟩, fun h => by omega⟩

theorem parseVariable_does (e : Expectation) :
    Does (parseVariable e) c fun global c' => c.Opens c' global := by
  unfold parseVariable
  refine (consume_does .identifier e).bind fun _ c₁ _ _ h₁ => ?_
  refine declareVariable_does.bind fun _ c₂ _ _ h₂ => ?_
  obtain ⟨harity, hdepth, hclasses, hcode, -, hlocal, hglobal⟩ := h₂
  refine .get (.ite (fun hpos => .pure ⟨harity.trans h₁.arity, hdepth.trans h₁.depth,
    hclasses.trans h₁.classes, hcode.trans h₁.code, fun hp => ?_, fun h0 => ?_⟩) fun hzero => ?_)
  · rw [← h₁.depth] at hp
    rw [← h₁.locals]
    exact hlocal hp
  · rw [hdepth, h₁.depth] at hpos
    omega
  · refine lexeme_does.bind fun name c₃ _ _ h₃ => ?_
    obtain rfl := h₃
    refine (nameConstant_does name).mono fun global c₄ _ _ h₄ => ?_
    refine ⟨h₄.1.arity.trans (harity.trans h₁.arity), h₄.1.depth.trans (hdepth.trans h₁.depth),
      h₄.1.classes.trans (hclasses.trans h₁.classes), h₄.1.code.trans (hcode.trans h₁.code),
      fun hp => ?_, fun h0 => ⟨?_, h₄.2⟩⟩
    · rw [hdepth, h₁.depth] at hzero
      exact absurd hp hzero
    · rw [h₄.1.locals, hglobal (by rw [h₁.depth]; exact h0), h₁.locals]

/-- Letting a variable be used changes only the list of variables, and not its length. -/
theorem initialized_eq (d : Draft) : ∃ ls,
    (if d.depth = 0 then d else
      match d.locals with
      | [] => d
      | l :: locals => { d with locals := { l with depth := some d.depth } :: locals }) =
      { d with locals := ls } ∧ ls.length = d.locals.length ∧
    (0 < d.depth → ∀ l ls', d.locals = l :: ls' → ls = { l with depth := some d.depth } :: ls') ∧
    (d.depth = 0 → ls = d.locals) := by
  by_cases h0 : d.depth = 0
  · exact ⟨_, by rw [if_pos h0], rfl, fun h => by omega, fun _ => rfl⟩
  · rw [if_neg h0]
    split
    · rename_i hls
      exact ⟨_, rfl, rfl, by simp [hls], fun h => absurd h h0⟩
    · rename_i l ls hls
      exact ⟨_, rfl, by simp [hls], by simp [hls], fun h => absurd h h0⟩

theorem markInitialized_does : Does markInitialized c fun _ c' =>
    c'.draft.arity = c.draft.arity ∧ c'.draft.depth = c.draft.depth ∧ c'.classes = c.classes ∧
      c'.draft.chunk.written = c.draft.chunk.written ∧ c'.pool = c.pool ∧
      (0 < c.draft.depth → ∀ l ls, c.draft.locals = l :: ls →
        c'.draft.locals = { l with depth := some c.draft.depth } :: ls) ∧
      (c.draft.depth = 0 → c'.draft.locals = c.draft.locals) := by
  obtain ⟨ls, heq, hlength, hlocal, hglobal⟩ := initialized_eq c.draft
  intro hc
  refine Does.mono (modifyDraft_does heq rfl rfl rfl rfl ?_) (fun _ c' _ _ h => ?_) hc
  · exact hlength.trans_le hc.draft.locals_length
  · obtain ⟨rfl, hpool⟩ := h
    exact ⟨rfl, rfl, rfl, rfl, hpool, hlocal, hglobal⟩

end Compile

/-- A variable has been declared since `c`, and its value is on top of the stack. -/
structure Compiler.Valued (c c' : Compiler) (global : UInt8) : Prop where
  arity : c'.draft.arity = c.draft.arity
  depth : c'.draft.depth = c.draft.depth
  classes : c'.classes = c.classes
  slot : 0 < c.draft.depth → ∃ l old, c'.draft.locals = l :: old ∧
    LocalsGrow c.draft.locals old ∧
    ∀ b flags, Covers (l :: old) (b :: flags) → c.Moves c' (some flags) (some (b :: flags))
  global : c.draft.depth = 0 → LocalsGrow c.draft.locals c'.draft.locals ∧
    c'.pool.constants[global.toNat]? = some .string ∧
    ∀ flags, Covers c'.draft.locals flags → c.Moves c' (some flags) (some (false :: flags))

namespace Compile

/-- **A variable whose value is on top of the stack is defined.** A local one keeps the value where
it is, a global one takes it off the stack. -/
theorem defineVariable_does {global : UInt8} (h : c.Valued c₁ global) :
    Does (defineVariable global) c₁ fun _ c' => ∃ added, c.Declares c' added := by
  unfold defineVariable
  refine .get (.ite (fun hpos => ?_) fun hzero => ?_)
  · rw [h.depth] at hpos
    obtain ⟨l, old, hlocals, hgrow, hmoves⟩ := h.slot hpos
    refine markInitialized_does.mono fun _ c₂ _ hl₂ h₂ => ?_
    obtain ⟨harity, hdepth, hclasses, hcode, -, hlocal, -⟩ := h₂
    have hlocals₂ := hlocal (by rw [h.depth]; exact hpos) l old hlocals
    refine ⟨[{ l with depth := some c₁.draft.depth }], harity.trans h.arity,
      hdepth.trans h.depth, hclasses.trans h.classes, ⟨old, hlocals₂, hgrow⟩, ?_,
      fun flags hf => ?_⟩
    · simp [h.depth]
    · rw [hlocals₂] at hf
      cases hf with
      | cons hb hf =>
        exact (hmoves _ _ (.cons hb hf)).trans (hl₂.moves hcode _)
  · have h0 : c.draft.depth = 0 := by
      rw [h.depth] at hzero
      omega
    obtain ⟨hgrow, hconstant, hmoves⟩ := h.global h0
    refine (emitWith_does .defineGlobal global).mono fun _ c₂ _ _ h₂ => ?_
    refine ⟨[], h₂.arity.trans h.arity, h₂.depth.trans h.depth, h₂.classes.trans h.classes,
      ⟨_, h₂.locals, hgrow⟩, by simp, fun flags hf => ?_⟩
    refine (hmoves flags (by rw [← h₂.locals]; exact hf)).trans ?_
    exact h₂.plain (n := 0) ⟨rfl, hconstant⟩ (by simp [Opcode.needs, Opcode.pops])
      (by simp [Opcode.pops])

/-! ## The end of a scope -/

/-- Variables that leave their scope are popped, or moved off the stack if they are captured. -/
theorem pops_does (ls : List Local) :
    Does (ls.forM fun l => emit (if l.captured then .closeUpvalue else .pop)) c fun _ c' =>
      c.Within c' ∧ ∀ flags : Shape,
        c.Moves c' (some (ls.map (·.captured) ++ flags)) (some flags) := by
  induction ls generalizing c with
  | nil => exact .pure ⟨.refl c, fun flags _ h => h⟩
  | cons l ls ih =>
    refine Does.bind (emit_does _) fun _ c₁ _ _ h₁ => ?_
    refine ih.mono fun _ c₂ _ _ h₂ => ⟨h₁.toWithin.trans h₂.1, fun flags => ?_⟩
    refine Compiler.Moves.trans ?_ (h₂.2 flags)
    cases hl : l.captured with
    | true =>
      simp only [hl, if_true] at h₁
      exact h₁.plain (n := 0) (s := l.captured :: (ls.map (·.captured) ++ flags))
        ⟨by simp, rfl⟩ (by simp [Opcode.needs, Opcode.pops]) (by simp)
    | false =>
      simp only [hl] at h₁
      refine h₁.plain (n := 0) (s := l.captured :: (ls.map (·.captured) ++ flags))
        ⟨by simp, rfl⟩ (by simp [Opcode.needs, Opcode.pops]) (by simp [Opcode.pops, hl])

/-- **What happens in a scope is a statement of the scope around it.** -/
theorem endScope_does (hscoped : c.Scoped)
    (h : c.opened.Declares c₁ added) : Does endScope c₁ fun _ c' => c.Declares c' [] := by
  intro hc₁
  obtain ⟨old, hlocals, hgrow⟩ := h.locals
  change LocalsGrow c.draft.locals old at hgrow
  have hdepth : c₁.draft.depth - 1 = c.draft.depth := by
    rw [h.depth]
    rfl
  have hinner : ∀ l ∈ added, (!l.depth.any (· ≤ c.draft.depth)) = true := by
    intro l hl
    simp [h.fresh l hl, Compiler.opened]
  have houter : ∀ l ∈ old, (!l.depth.any (· ≤ c.draft.depth)) = false := by
    intro l hl
    obtain ⟨i, hi, rfl⟩ := List.mem_iff_getElem.1 hl
    have hlength := List.Forall₂.length_eq hgrow
    have hgrows := (List.forall₂_iff_get.1 hgrow).2 i (by omega) hi
    obtain ⟨k, hk, hle⟩ := hscoped.opened _ (List.getElem_mem (by omega : i < c.draft.locals.length))
    have hdepth' := hgrows.depth.trans hk
    simp only [List.get_eq_getElem] at hdepth'
    simp [hdepth', hle]
  have htake : (added ++ old).takeWhile (fun l => !l.depth.any (· ≤ c.draft.depth)) = added := by
    rw [List.takeWhile_append_of_pos hinner]
    cases old with
    | nil => simp
    | cons l old => simp [houter l List.mem_cons_self]
  have hdrop : (added ++ old).dropWhile (fun l => !l.depth.any (· ≤ c.draft.depth)) = old := by
    rw [List.dropWhile_append_of_pos hinner]
    cases old with
    | nil => simp
    | cons l old => simp [houter l List.mem_cons_self]
  refine Does.bind (modifyDraft_does rfl rfl rfl rfl rfl hc₁.draft.locals_length)
    (fun _ c₂ hc₂ hl₂ h₂ => ?_) hc₁
  obtain ⟨rfl, hpool₂⟩ := h₂
  refine .get ?_
  dsimp only
  rw [hdepth, hlocals, htake, ← hlocals]
  refine (pops_does added).bind fun _ c₃ hc₃ _ h₃ => ?_
  have hlocals₃ : c₃.draft.locals = added ++ old := h₃.1.locals.trans hlocals
  refine Does.mono (modifyDraft_does rfl rfl rfl rfl rfl ?_) fun _ c₄ _ hl₄ h₄ => ?_
  · have hle := hc₃.draft.locals_length
    exact (List.dropWhile_suffix _).length_le.trans hle
  · obtain ⟨rfl, hpool₄⟩ := h₄
    have hlocals₄ : c₃.draft.locals.dropWhile (fun l => !l.depth.any (· ≤ c.draft.depth)) = old := by
      rw [hlocals₃, hdrop]
    refine ⟨h₃.1.arity.trans h.arity, h₃.1.depth, h₃.1.classes.trans h.classes,
      ⟨old, hlocals₄, hgrow⟩, by simp, fun flags hf => ?_⟩
    simp only [hlocals₄] at hf
    have hcovers : Covers c₁.draft.locals (added.map (·.captured) ++ flags) := by
      rw [hlocals]
      exact covers_append added hf
    have hmoves := h.moves _ hcovers
    rw [List.drop_left' (by simp)] at hmoves
    refine Compiler.Moves.trans hmoves ?_
    refine (hl₂.moves rfl _).trans ((h₃.2 flags).trans ?_)
    exact hl₄.moves rfl (some flags)

end Compile

end LoxMachine
