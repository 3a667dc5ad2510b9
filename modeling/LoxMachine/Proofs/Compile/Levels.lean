import LoxMachine.Proofs.Compile.Resolution
import LoxMachine.Proofs.Compile.Declarations

/-!
# What every point of a compilation can rely on

These facts hold whether errors have been found or not.

* `Compiler.Fed`: there is an end of the tokens to come, and strings have their quotes. Every action keeps
  this, and gives no token back: `Compiler.Feeds`.
* `Compiler.Level`: the functions being compiled are as deep in scopes as before and their code is no
  shorter, and the classes around are the same. Scopes, functions and classes are closed by the rules that
  open them, so each rule of the parser leads to a level state.
* `Compile.Places`: an action answers with a place in the code.
* `Compile.Takes`: an action takes a token, unless there is none left. So do the rules of the parser, also where
  they find none of the tokens they expect.
-/

namespace LoxMachine

/-! ## Tokens -/

/-- The text of a string token stands between quotes. -/
def Token.Quoted (t : Token) : Prop :=
  t.kind = .string → 2 ≤ t.text.toList.length ∧ t.text.toList.head? = some '"' ∧
    t.text.toList.getLast? = some '"'

namespace Compiler

/-- The tokens to come end with `eof`, and strings have their quotes. -/
structure Fed (c : Compiler) : Prop where
  ended : Ended c.rest c.current
  previous : c.previous.Quoted
  current : c.current.Quoted
  rest : ∀ t ∈ c.rest, t.Quoted

/-- The tokens to come are still in order, and no more than before. -/
def Feeds (c c' : Compiler) : Prop := c.Fed → c'.Fed ∧ c'.left ≤ c.left

variable {c c' c'' : Compiler} {ts : List Token}

theorem previous_errorAt (c : Compiler) (t : Token) (d : Diagnosis) :
    (c.errorAt t d).previous = c.previous := by
  unfold errorAt
  split <;> rfl

theorem previous_pull (ts : List Token) (c : Compiler) : (c.pull ts).previous = c.previous := by
  induction ts generalizing c with
  | nil => rfl
  | cons t ts ih =>
    unfold pull
    split
    · exact (ih _).trans (previous_errorAt c t _)
    · rfl
    · rfl

/-- Reading a token from a list that has an end. -/
theorem pull_fed (hend : ∃ t ∈ ts, t.kind = .eof) (hts : ∀ t ∈ ts, t.Quoted) (hprevious : c.previous.Quoted) :
    (c.pull ts).Fed ∧ (c.pull ts).left < ts.length := by
  induction ts generalizing c with
  | nil =>
    obtain ⟨t, ht, -⟩ := hend
    cases ht
  | cons t ts ih =>
    obtain ⟨ht, hts⟩ := List.forall_mem_cons.1 hts
    obtain ⟨e, he, hkind⟩ := hend
    have hlater : t.kind ≠ .eof → e ∈ ts := fun hne => by
      rcases List.mem_cons.1 he with rfl | he
      · exact absurd hkind hne
      · exact he
    unfold pull
    split
    · rename_i reason hreason
      obtain ⟨hfed, hleft⟩ := ih (c := c.errorAt t (.scan reason))
        ⟨e, hlater (by rw [hreason]; exact nofun), hkind⟩ hts (by rw [previous_errorAt]; exact hprevious)
      exact ⟨hfed, Nat.lt_succ_of_lt hleft⟩
    · rename_i heof
      refine ⟨⟨⟨⟨t, List.mem_singleton_self t, heof⟩, fun _ => ⟨t, [], rfl, heof⟩⟩, hprevious, ht,
        fun u hu => List.mem_singleton.1 hu ▸ ht⟩, ?_⟩
      simp [left, heof]
    · rename_i _ heof
      have hne : t.kind ≠ .eof := heof
      refine ⟨⟨⟨⟨e, hlater hne, hkind⟩, fun h => absurd h hne⟩, hprevious, ht, hts⟩, ?_⟩
      simp [left, if_neg hne]

/-- Only at the end is no token left. -/
theorem Fed.left_eq_zero_iff (h : c.Fed) : c.left = 0 ↔ c.current.kind = .eof := by
  unfold left
  split
  · simp [*]
  · obtain ⟨t, ht, -⟩ := h.ended.mem
    simp [*, List.ne_nil_of_mem ht]

theorem Fed.advance (h : c.Fed) : (Compile.advance c).2.Fed ∧
    ((Compile.advance c).2.left < c.left ∨ c.left = 0 ∧ (Compile.advance c).2.left = 0) := by
  change (({ c with previous := c.current } : Compiler).pull c.rest).Fed ∧ _
  refine ⟨(pull_fed h.ended.mem h.rest h.current).1, ?_⟩
  by_cases heof : c.current.kind = .eof
  · refine .inr ⟨h.left_eq_zero_iff.2 heof, ?_⟩
    obtain ⟨t, ts, hrest, ht⟩ := h.ended.stays heof
    change (({ c with previous := c.current } : Compiler).pull c.rest).left = 0
    rw [hrest]
    unfold pull
    split
    · simp_all
    · simp [left, ht]
    · simp_all
  · refine .inl ?_
    have hleft : c.left = c.rest.length := if_neg heof
    rw [hleft]
    exact (pull_fed h.ended.mem h.rest h.current).2

theorem feeds_errorAt (c : Compiler) (t : Token) (d : Diagnosis) : c.Feeds (c.errorAt t d) := by
  unfold errorAt
  split <;> exact fun h => ⟨⟨h.ended, h.previous, h.current, h.rest⟩, le_rfl⟩

/-- **No action gives a token back**, and the end is not lost. -/
instance : Course Feeds where
  refl _ h := ⟨h, le_rfl⟩
  trans h h' hc := ⟨(h' (h hc).1).1, (h' (h hc).1).2.trans (h hc).2⟩
  report := feeds_errorAt
  read c h := ⟨h.advance.1, by rcases h.advance.2 with hlt | ⟨hzero, hleft⟩ <;> omega⟩
  calm _ h := ⟨⟨h.ended, h.previous, h.current, h.rest⟩, le_rfl⟩
  intern _ _ h := ⟨⟨h.ended, h.previous, h.current, h.rest⟩, le_rfl⟩
  function _ _ h := ⟨⟨h.ended, h.previous, h.current, h.rest⟩, le_rfl⟩
  record _ _ h := ⟨⟨h.ended, h.previous, h.current, h.rest⟩, le_rfl⟩
  classes _ _ h := ⟨⟨h.ended, h.previous, h.current, h.rest⟩, le_rfl⟩
  write _ _ _ _ h := ⟨⟨h.ended, h.previous, h.current, h.rest⟩, le_rfl⟩
  number _ _ h := ⟨⟨h.ended, h.previous, h.current, h.rest⟩, le_rfl⟩
  string _ _ h := ⟨⟨h.ended, h.previous, h.current, h.rest⟩, le_rfl⟩
  constant _ _ h := ⟨⟨h.ended, h.previous, h.current, h.rest⟩, le_rfl⟩
  count _ h := ⟨⟨h.ended, h.previous, h.current, h.rest⟩, le_rfl⟩
  scope _ _ h := ⟨⟨h.ended, h.previous, h.current, h.rest⟩, le_rfl⟩
  forget _ _ h := ⟨⟨h.ended, h.previous, h.current, h.rest⟩, le_rfl⟩
  declare _ _ _ h := ⟨⟨h.ended, h.previous, h.current, h.rest⟩, le_rfl⟩
  settle _ h := ⟨⟨h.ended, h.previous, h.current, h.rest⟩, le_rfl⟩
  resolve _ _ _ _ h := ⟨⟨h.ended, h.previous, h.current, h.rest⟩, le_rfl⟩
  begin _ _ _ h := ⟨⟨h.ended, h.previous, h.current, h.rest⟩, le_rfl⟩
  finish c h := by cases henclosing : c.enclosing <;> exact ⟨⟨h.ended, h.previous, h.current, h.rest⟩, le_rfl⟩

end Compiler

/-! ## Drafts -/

/-- The draft is as deep in scopes as before, and its code no shorter. -/
structure Draft.Level (d d' : Draft) : Prop where
  depth : d'.depth = d.depth
  size : d.chunk.size ≤ d'.chunk.size

namespace Draft

variable {d d' d'' : Draft} {outer : List Draft}

theorem Level.refl (d : Draft) : d.Level d := ⟨rfl, le_rfl⟩

theorem Level.trans (h : d.Level d') (h' : d'.Level d'') : d.Level d'' :=
  ⟨h'.depth.trans h.depth, h.size.trans h'.size⟩

theorem level_capture (d : Draft) (c : Capture) : d.Level (d.capture c).draft := by
  unfold capture
  split
  · exact .refl d
  · split <;> exact ⟨rfl, le_rfl⟩

theorem forall₂_level_refl (ds : List Draft) : List.Forall₂ Level ds ds :=
  List.forall₂_same.2 fun d _ => .refl d

theorem forall₂_level_trans {ds₁ ds₂ ds₃ : List Draft} (h : List.Forall₂ Level ds₁ ds₂)
    (h' : List.Forall₂ Level ds₂ ds₃) : List.Forall₂ Level ds₁ ds₃ := by
  induction h generalizing ds₃ with
  | nil => exact h'
  | cons hd _ ih =>
    cases h' with
    | cons hd' h' => exact .cons (hd.trans hd') (ih h')

/-- Captured variables are neither code nor scopes. -/
theorem level_resolve {name : String} {r : Resolution} (h : resolve name d outer = some r) :
    List.Forall₂ Level (d :: outer) (r.draft :: r.enclosing) := by
  induction outer generalizing d r with
  | nil => cases h
  | cons e outer ih =>
    unfold resolve at h
    split at h
    · rw [← Option.some.inj h]
      exact .cons (level_capture d _) (.cons ⟨rfl, le_rfl⟩ (forall₂_level_refl outer))
    · split at h
      · cases h
      · rename_i r' hr
        rw [← Option.some.inj h]
        exact .cons (level_capture d _) (ih hr)

end Draft

namespace Compiler

variable {c c' c'' : Compiler}

/-- The functions being compiled are as deep in scopes as before and their code is no shorter, and the
classes around are the same. -/
structure Level (c c' : Compiler) : Prop where
  drafts : List.Forall₂ Draft.Level c.drafts c'.drafts
  classes : c'.classes = c.classes

namespace Level

theorem refl (c : Compiler) : c.Level c := ⟨Draft.forall₂_level_refl _, rfl⟩

theorem trans (h : c.Level c') (h' : c'.Level c'') : c.Level c'' :=
  ⟨Draft.forall₂_level_trans h.drafts h'.drafts, h'.classes.trans h.classes⟩

/-- Nothing but the innermost draft has changed. -/
theorem of_draft {d : Draft} (h : c.draft.Level d) : c.Level { c with draft := d } :=
  ⟨.cons h (Draft.forall₂_level_refl _), rfl⟩

theorem draft (h : c.Level c') : c.draft.Level c'.draft := (List.forall₂_cons.1 h.drafts).1

theorem enclosing (h : c.Level c') : List.Forall₂ Draft.Level c.enclosing c'.enclosing :=
  (List.forall₂_cons.1 h.drafts).2

theorem depth (h : c.Level c') : c'.draft.depth = c.draft.depth := h.draft.depth

theorem size (h : c.Level c') : c.draft.chunk.size ≤ c'.draft.chunk.size := h.draft.size

end Level

theorem level_of_drafts (h : c'.drafts = c.drafts) (hclasses : c'.classes = c.classes) : c.Level c' := by
  refine ⟨?_, hclasses⟩
  rw [h]
  exact Draft.forall₂_level_refl _

theorem level_errorAt (c : Compiler) (t : Token) (d : Diagnosis) : c.Level (c.errorAt t d) := by
  refine level_of_drafts (drafts_errorAt c t d) ?_
  unfold errorAt
  split <;> rfl

theorem classes_pull (ts : List Token) (c : Compiler) : (c.pull ts).classes = c.classes := by
  induction ts generalizing c with
  | nil => rfl
  | cons t ts ih =>
    unfold pull
    split
    · exact (ih _).trans (level_errorAt c t _).classes
    · rfl
    · rfl

instance : Steady Level where
  refl := .refl
  trans := .trans
  report := level_errorAt
  read c := level_of_drafts (drafts_pull c.rest { c with previous := c.current })
    (classes_pull c.rest { c with previous := c.current })
  calm c := ⟨Draft.forall₂_level_refl _, rfl⟩
  intern c _ := ⟨Draft.forall₂_level_refl _, rfl⟩
  function c _ := ⟨Draft.forall₂_level_refl _, rfl⟩
  record c _ := ⟨Draft.forall₂_level_refl _, rfl⟩
  write c f h _ := .of_draft ⟨rfl, h⟩
  number c _ := .of_draft ⟨rfl, le_rfl⟩
  string c _ := ⟨.cons ⟨rfl, le_rfl⟩ (Draft.forall₂_level_refl _), rfl⟩
  count c := .of_draft ⟨rfl, le_rfl⟩
  declare c _ _ := .of_draft ⟨rfl, le_rfl⟩
  settle c := by
    refine .of_draft ?_
    dsimp only
    split
    · exact .refl _
    · split <;> exact ⟨rfl, le_rfl⟩
  resolve c _ _ h := ⟨Draft.level_resolve h, rfl⟩

instance (v : Value) : Compile.Along Level (Compile.makeConstant v) :=
  Compile.along_makeConstant fun _ => .of_draft ⟨rfl, le_rfl⟩

end Compiler

/-! ## What is opened and closed -/

namespace Compiler

open Compile

section Turns

variable {α β : Type} {P Q R : Compiler → Prop} {x : Compile α}

/-- From any state with `P` the action leads to one with `Q`. -/
def Turns (P Q : Compiler → Prop) (x : Compile α) : Prop := ∀ c, P c → Q (x c).2

theorem Turns.bind {f : α → Compile β} (h : Turns P Q x) (hf : ∀ a, Turns Q R (f a)) :
    Turns P R (x >>= f) :=
  fun c hc => hf _ _ (h c hc)

/-- What a state is level with does not change. -/
theorem turns_level (c : Compiler) (x : Compile α) [hx : Along Level x] : Turns c.Level c.Level x :=
  fun c' h => h.trans (hx.along c')

end Turns

section Opened

variable (c : Compiler)

/-- The state at the beginning of a scope. -/
def inScope : Compiler := { c with draft := { c.draft with depth := c.draft.depth + 1 } }

theorem turns_beginScope : Turns c.Level c.inScope.Level beginScope := fun _ h =>
  ⟨.cons ⟨congrArg (· + 1) h.depth, h.size⟩ h.enclosing, h.classes⟩

/-- Code is written for the variables that leave the scope. -/
theorem turns_endScope : Turns c.inScope.Level c.Level endScope := fun c' h => by
  have hforget : ∀ leaves : Local → Bool,
      Along Level (modifyDraft fun d => { d with locals := d.locals.dropWhile leaves }) :=
    fun leaves => ⟨fun c => .of_draft ⟨rfl, le_rfl⟩⟩
  have hrest : Along Level (do
      let d := (← get).draft
      let leaves (l : Local) : Bool := !l.depth.any (· ≤ d.depth)
      (d.locals.takeWhile leaves).forM fun l => emit (if l.captured then .closeUpvalue else .pop)
      modifyDraft fun d => { d with locals := d.locals.dropWhile leaves } : Compile Unit) := by
    dsimp only
    infer_instance
  have hclosed : c.Level { c' with draft := { c'.draft with depth := c'.draft.depth - 1 } } :=
    ⟨.cons ⟨congrArg (· - 1) h.depth, h.size⟩ h.enclosing, h.classes⟩
  exact hclosed.trans (hrest.along _)

/-- The state at the beginning of a class, which may have a superclass and a scope for it. -/
def inClass (b : Bool) : Compiler :=
  { c with
    draft := { c.draft with depth := c.draft.depth + b.toNat }
    classes := { hasSuperclass := b } :: c.classes }

/-- A state inside of a function that is compiled there. -/
structure InFunction (c' : Compiler) : Prop where
  enclosing : List.Forall₂ Draft.Level c.drafts c'.enclosing
  classes : c'.classes = c.classes

theorem turns_inFunction {α : Type} (x : Compile α) [hx : Along Level x] :
    Turns c.InFunction c.InFunction x := fun c' h =>
  ⟨Draft.forall₂_level_trans h.enclosing (hx.along c').enclosing, (hx.along c').classes.trans h.classes⟩

theorem turns_beginFunction (kind : FunctionKind) : Turns c.Level c.InFunction (beginFunction kind) := by
  have hbegin : ∀ name : Handle, Turns c.Level c.InFunction (modify fun c =>
      { c with draft := .start kind (some name), enclosing := c.draft :: c.enclosing } : Compile Unit) :=
    fun _ _ h => ⟨h.drafts, h.classes⟩
  exact (turns_level c lexeme).bind fun s => (turns_level c (intern s)).bind hbegin

theorem turns_endFunction : Turns c.InFunction c.Level endFunction := fun c' h => by
  have hreturn := turns_inFunction c emitReturn c' h
  have hleave : c.Level (emitReturn c').2.leave := by
    have hdrafts := hreturn.enclosing
    unfold leave
    cases henclosing : (emitReturn c').2.enclosing with
    | nil =>
      rw [henclosing] at hdrafts
      cases hdrafts
    | cons d enclosing =>
      rw [henclosing] at hdrafts
      exact ⟨hdrafts, hreturn.classes⟩
  exact turns_level c (reportListing (emitReturn c').2.draft) _ hleave

end Opened

section Rules

variable (c : Compiler) (expr stmt decl : Compile Unit) [Along Level expr] [Along Level stmt]
  [Along Level decl] (fuel : Nat)

theorem turns_forEnd (leave : Option Nat) : Turns c.inScope.Level c.Level (match leave with
    | some onFalse => do
      patchJump onFalse
      let _ ← emit .pop
      endScope
    | _ => endScope) := by
  split
  · exact (turns_level _ _).bind fun _ => (turns_level _ _).bind fun _ => turns_endScope c
  · exact turns_endScope c

theorem turns_forStatement : Turns c.Level c.Level (forStatement expr stmt) := by
  unfold forStatement
  refine (turns_beginScope c).bind fun _ => (turns_level _ _).bind fun _ => (turns_level _ _).bind fun _ =>
    (turns_level _ _).bind fun _ => (turns_level _ _).bind fun _ => (turns_level _ _).bind fun _ =>
    (turns_level _ _).bind fun _ => (turns_level _ _).bind fun _ => ?_
  exact turns_forEnd c _

theorem turns_functionBody (kind : FunctionKind) : Turns c.Level c.Level (functionBody decl fuel kind) := by
  have hscope : Turns c.InFunction c.InFunction beginScope := fun _ h => ⟨h.enclosing, h.classes⟩
  have hbody : Turns c.InFunction c.Level (do
      consume .rightParen .rightParenAfterParameters
      consume .leftBrace .leftBraceBeforeFunctionBody
      block decl fuel
      let d ← endFunction
      let h ← alloc (.function d.function)
      emitWith .closure (← makeConstant (.obj h))
      d.captures.forM fun c => do
        emitByte (if c.isLocal then 1 else 0)
        emitByte c.index : Compile Unit) :=
    (turns_inFunction c _).bind fun _ => (turns_inFunction c _).bind fun _ =>
      (turns_inFunction c _).bind fun _ => (turns_endFunction c).bind fun _ => turns_level c _
  unfold functionBody
  refine (turns_beginFunction c kind).bind fun _ => hscope.bind fun _ => (turns_inFunction c _).bind fun _ =>
    (turns_inFunction c _).bind fun b => ?_
  dsimp only
  split
  · exact (turns_inFunction c _).bind fun _ => hbody
  · exact hbody

/-- A superclass opens a scope. -/
theorem turns_superclass (name : String) :
    Turns (c.inClass false).Level (c.inClass true).Level (superclass name) := by
  have hclasses : Turns (c.inClass false).inScope.Level (c.inClass true).Level (modify fun c =>
      { c with classes := { hasSuperclass := true } :: c.classes.drop 1 } : Compile Unit) := fun c' h => by
    refine ⟨h.drafts, ?_⟩
    change { hasSuperclass := true } :: c'.classes.drop 1 = _
    rw [h.classes]
    rfl
  have hscope : Turns (c.inClass false).Level (c.inClass true).Level (do
      beginScope
      addLocal "super"
      defineVariable 0
      readVariable name
      emit .inherit
      modify fun c => { c with classes := { hasSuperclass := true } :: c.classes.drop 1 } : Compile Unit) :=
    (turns_beginScope _).bind fun _ => (turns_level _ _).bind fun _ => (turns_level _ _).bind fun _ =>
      (turns_level _ _).bind fun _ => (turns_level _ _).bind fun _ => hclasses
  unfold superclass
  refine (turns_level _ _).bind fun _ => (turns_level _ _).bind fun _ => (turns_level _ _).bind fun _ =>
    (turns_level _ _).bind fun text => ?_
  dsimp only
  split
  · exact (turns_level _ _).bind fun _ => hscope
  · exact hscope

/-- After the name of a superclass a scope is open. -/
theorem superclass_opens (name : String) (c : Compiler) : 0 < (superclass name c).2.draft.depth := by
  have hkeep : ∀ {α : Type} (x : Compile α) [Along Level x],
      Turns (fun c => 0 < c.draft.depth) (fun c => 0 < c.draft.depth) x :=
    fun x hx c h => h.trans_eq (hx.along c).depth.symm
  have hany : ∀ {α : Type} (x : Compile α), Turns (fun _ => True) (fun _ => True) x := fun _ _ _ => trivial
  have hopen : Turns (fun _ => True) (fun c => 0 < c.draft.depth) beginScope := fun _ _ => Nat.succ_pos _
  have hscope : Turns (fun _ => True) (fun c => 0 < c.draft.depth) (do
      beginScope
      addLocal "super"
      defineVariable 0
      readVariable name
      emit .inherit
      modify fun c => { c with classes := { hasSuperclass := true } :: c.classes.drop 1 } : Compile Unit) :=
    hopen.bind fun _ => (hkeep _).bind fun _ => (hkeep _).bind fun _ => (hkeep _).bind fun _ =>
      (hkeep _).bind fun _ _ h => h
  have hall : Turns (fun _ => True) (fun c => 0 < c.draft.depth) (superclass name) := by
    unfold superclass
    refine (hany _).bind fun _ => (hany _).bind fun _ => (hany _).bind fun _ => (hany _).bind fun text => ?_
    dsimp only
    split
    · exact (hany _).bind fun _ => hscope
    · exact hscope
  exact hall c trivial

/-- The end of a class closes the scope of its superclass. -/
theorem turns_classEnd (b : Bool) : Turns (c.inClass b).Level c.Level (do
    let scope := (← get).classes.head?
    modify fun c => { c with classes := c.classes.drop 1 }
    if scope.any (·.hasSuperclass) then endScope : Compile Unit) := fun c' h => by
  have hclasses : c'.classes = { hasSuperclass := b } :: c.classes := h.classes
  change c.Level (((if c'.classes.head?.any (·.hasSuperclass) then endScope else pure ()) : Compile Unit)
    { c' with classes := c'.classes.drop 1 }).2
  rw [hclasses]
  cases b with
  | false => exact ⟨h.drafts, rfl⟩
  | true => exact turns_endScope c _ ⟨h.drafts, rfl⟩

theorem turns_classBody (b : Bool) (name : String) :
    Turns (c.inClass b).Level c.Level (classBody decl fuel name) := by
  have hbody : ∀ kind, Along Level (functionBody decl fuel kind) :=
    fun kind => ⟨fun c => turns_functionBody c decl fuel kind c (.refl c)⟩
  unfold classBody
  exact (turns_level _ _).bind fun _ => (turns_level _ _).bind fun _ => (turns_level _ _).bind fun _ =>
    (turns_level _ _).bind fun _ => (turns_level _ _).bind fun _ => turns_classEnd c b

theorem turns_classDeclaration : Turns c.Level c.Level (classDeclaration decl fuel) := by
  have hclasses : Turns c.Level (c.inClass false).Level
      (modify fun c => { c with classes := {} :: c.classes } : Compile Unit) := fun c' h =>
    ⟨h.drafts, congrArg (_ :: ·) h.classes⟩
  unfold classDeclaration
  refine (turns_level _ _).bind fun _ => (turns_level _ _).bind fun name => (turns_level _ _).bind fun _ =>
    (turns_level _ _).bind fun _ => (turns_level _ _).bind fun _ => (turns_level _ _).bind fun _ =>
    hclasses.bind fun _ => (turns_level _ _).bind fun b => ?_
  dsimp only
  split
  · exact (turns_superclass c name).bind fun _ => turns_classBody c decl fuel true name
  · exact turns_classBody c decl fuel false name

end Rules

instance : Nested Level where
  scope decl _ fuel := ⟨fun c => ((turns_beginScope c).bind fun _ => (turns_level _ (block decl fuel)).bind
    fun _ => turns_endScope c) c (.refl c)⟩
  loop expr stmt _ _ := ⟨fun c => turns_forStatement c expr stmt c (.refl c)⟩
  body decl _ fuel kind := ⟨fun c => turns_functionBody c decl fuel kind c (.refl c)⟩
  cls decl _ fuel := ⟨fun c => turns_classDeclaration c decl fuel c (.refl c)⟩

end Compiler

/-! ## Places in the code -/

namespace Compile

variable {α β : Type} {place : β → Nat} {n : Nat} {x : Compile α} {f : α → Compile β}

/-- Where there is code up to `n`, the answer names a place in the code. -/
def Places (place : α → Nat) (n : Nat) (x : Compile α) : Prop :=
  ∀ c : Compiler, n ≤ c.draft.chunk.size → place (x c).1 ≤ (x c).2.draft.chunk.size

namespace Places

theorem pure {b : β} (h : place b ≤ n) : Places place n (Pure.pure b) := fun _ hn => h.trans hn

theorem step [hx : Along Compiler.Level x] (hf : ∀ a, Places place n (f a)) : Places place n (x >>= f) :=
  fun c hn => hf _ _ (hn.trans (hx.along c).size)

/-- What names a place is followed by an action that may answer with it. -/
theorem bind {mark : α → Nat} (h : ∀ n, Places mark n x) (hf : ∀ a, Places place (mark a) (f a)) :
    Places place n (x >>= f) :=
  fun c hn => hf _ _ (h n c hn)

theorem ite {p : Prop} [Decidable p] {y z : Compile β} (hy : Places place n y) (hz : Places place n z) :
    Places place n (if p then y else z) := by
  split
  · exact hy
  · exact hz

end Places

/-- A jump ends with the two bytes of its distance. -/
theorem emitJump_places (op : Opcode) (n : Nat) : Places (· + 2) n (emitJump op) := fun c _ => by
  change (((c.draft.chunk.write _ _).write _ _).write _ _).size - 2 + 2 ≤
    (((c.draft.chunk.write _ _).write _ _).write _ _).size
  simp only [Chunk.size_write]
  omega

theorem codeSize_places (n : Nat) : Places id n codeSize := fun _ _ => le_rfl

section Rules

variable (expr : Compile Unit) [Along Compiler.Level expr]

/-- The jump that leaves a loop. -/
theorem forCondition_places (n : Nat) : Places (·.elim 0 (· + 2)) n (forCondition expr) :=
  .step fun _ => .ite (.pure (Nat.zero_le _)) (.step fun _ => .step fun _ =>
    .bind (emitJump_places _) fun _ => .step fun _ => .pure le_rfl)

/-- Where the body of a loop goes back to. -/
theorem forIncrement_places (start : Nat) : Places id start (forIncrement expr start) :=
  .step fun _ => .ite (.pure le_rfl) (.step fun _ => .bind codeSize_places fun _ => .step fun _ =>
    .step fun _ => .step fun _ => .step fun _ => .step fun _ => .pure le_rfl)

end Rules

end Compile

/-! ## Progress -/

namespace Compiler

/-- At most `n` tokens are left. -/
structure Upto (n : Nat) (c : Compiler) : Prop where
  fed : c.Fed
  left : c.left ≤ n

/-- Less than `n` tokens are left, unless there were none. -/
structure Under (n : Nat) (c : Compiler) : Prop where
  fed : c.Fed
  left : n ≠ 0 → c.left < n

variable {α β : Type} {x : Compile α} {n : Nat} {c : Compiler}

theorem turns_upto (n : Nat) (x : Compile α) [hx : Compile.Along Feeds x] : Turns (Upto n) (Upto n) x :=
  fun c h => ⟨(hx.along c h.fed).1, (hx.along c h.fed).2.trans h.left⟩

theorem turns_under (n : Nat) (x : Compile α) [hx : Compile.Along Feeds x] : Turns (Under n) (Under n) x :=
  fun c h => ⟨(hx.along c h.fed).1, fun hn => (hx.along c h.fed).2.trans_lt (h.left hn)⟩

end Compiler

namespace Compile

open Compiler (Feeds Upto Under Turns turns_upto turns_under)

variable {α β : Type} {x : Compile α} {f : α → Compile β} {n : Nat} {c : Compiler}

/-- With at most `n` tokens left the action takes one, unless there is none. -/
def Takes (n : Nat) (x : Compile α) : Prop := Turns (Upto n) (Under n) x

theorem Takes.bind [∀ a, Along Feeds (f a)] (h : Takes n x) : Takes n (x >>= f) :=
  Turns.bind h fun _ => turns_under n _

theorem Takes.after [Along Feeds x] (h : ∀ a, Takes n (f a)) : Takes n (x >>= f) :=
  Turns.bind (turns_upto n x) h

theorem takes_advance : Takes n advance := fun c h => by
  refine ⟨h.fed.advance.1, fun hn => ?_⟩
  have hle := h.left
  rcases h.fed.advance.2 with hlt | ⟨-, hzero⟩ <;> omega

theorem accept_eq_ite (kind : TokenKind) (c : Compiler) : accept kind c =
    if c.current.kind = kind then (true, (advance c).2) else (false, c) := by
  change (if decide (c.current.kind = kind) = true then (do advance; return true) else return false :
    Compile Bool) c = _
  by_cases h : c.current.kind = kind
  · rw [if_pos (decide_eq_true h), if_pos h]
    rfl
  · rw [if_neg (by simpa using h), if_neg h]
    rfl

/-- A rule that is chosen by its token takes this token. -/
theorem Takes.accept {kind : TokenKind} {f : Bool → Compile β} [hf : ∀ a, Along Feeds (f a)]
    (h : Takes n (f false)) : Takes n (accept kind >>= f) := fun c hc => by
  change Under n (f (Compile.accept kind c).1 (Compile.accept kind c).2).2
  rw [accept_eq_ite]
  split
  · exact turns_under n (f true) _ (takes_advance c hc)
  · exact h c hc

theorem loop_succ (condition : Compile Bool) (body : Compile Unit) (n : Nat) (c : Compiler) :
    loop condition body (n + 1) c =
      (if (condition c).1 = true then (do body; loop condition body n) else pure () : Compile Unit)
        (condition c).2 := rfl

/-- Whether the current token is neither a closing brace nor the end. -/
theorem inside_eq (c : Compiler) :
    (do return !(← check .rightBrace) && !(← check .eof) : Compile Bool) c =
      (!decide (c.current.kind = .rightBrace) && !decide (c.current.kind = .eof), c) := rfl

set_option synthInstance.maxSize 16384

section Rules

variable {expr stmt decl : Compile Unit} [Along Feeds expr] [Along Feeds stmt] [hdecl : Along Feeds decl]
  {fuel : Nat}

/-- **A block** takes a declaration or the brace. -/
theorem takes_block (h : Takes n decl) (hfuel : n < fuel) : Takes n (block decl fuel) := fun c hc => by
  by_cases heof : c.current.kind = .eof
  · have hzero := hc.fed.left_eq_zero_iff.2 heof
    have hend := turns_upto c.left (block decl fuel) c ⟨hc.fed, le_rfl⟩
    exact ⟨hend.fed, fun hn => hend.left.trans_lt (hzero ▸ Nat.pos_of_ne_zero hn)⟩
  obtain ⟨m, rfl⟩ := Nat.exists_eq_succ_of_ne_zero (Nat.ne_zero_of_lt hfuel)
  change Under n (consume .rightBrace .rightBraceAfterBlock
    (loop (do return !(← check .rightBrace) && !(← check .eof)) decl (m + 1) c).2).2
  rw [loop_succ, inside_eq]
  by_cases hbrace : c.current.kind = .rightBrace
  · rw [if_neg (by simp [hbrace])]
    change Under n ((if decide (c.current.kind = .rightBrace) = true then advance else _ : Compile Unit) c).2
    rw [if_pos (decide_eq_true hbrace)]
    exact takes_advance c hc
  · rw [if_pos (by simp [hbrace, heof])]
    exact turns_under n _ _ (Takes.bind h c hc)

/-- **A function** has a block for its body. -/
theorem takes_functionBody (h : Takes n decl) (hfuel : n < fuel) (kind : FunctionKind) :
    Takes n (functionBody decl fuel kind) := by
  unfold functionBody
  refine .after fun _ => .after fun _ => .after fun _ => .after fun _ => ?_
  dsimp only
  split
  · exact .after fun _ => .after fun _ => .after fun _ => .bind (takes_block h hfuel)
  · exact .after fun _ => .after fun _ => .bind (takes_block h hfuel)

/-- **A method** may have no name, but it has a body. -/
theorem takes_method (h : Takes n decl) (hfuel : n < fuel) : Takes n (method decl fuel) :=
  .after fun _ => .after fun _ => .after fun _ => .bind (takes_functionBody h hfuel _)

/-- **A statement** takes its first token, or an expression does. -/
theorem takes_statementRule (h : Takes n expr) : Takes n (statementRule expr stmt decl fuel) := by
  have := Compiler.Nested.loop (R := Feeds) expr stmt
  unfold statementRule
  exact .accept (.accept (.accept (.accept (.accept (.accept (.bind h))))))

theorem takes_declarationRule (h : Takes n stmt) : Takes n (declarationRule expr stmt decl fuel) := by
  have := Compiler.Nested.cls (R := Feeds) decl fuel
  unfold declarationRule
  dsimp only
  exact .accept (.accept (.accept (.bind h)))

end Rules

end Compile

end LoxMachine
