import LoxMachine.Proofs.Compile.Statements

/-!
# Functions and classes

A function is compiled in a draft of its own. Its code starts with the receiver and the parameters
on the stack, and ends with a return; which of its variables are captured is known then, and its
layout is made for these.

* `parameters_does`: parameters are variables, as many as the function has arguments.
* `endFunction_ends`: the finished draft is laid out, and its captured variables are those of the
  draft around it.
* `functionBody_does`: the code of the enclosing function goes on with a closure, and the variables
  that it captures are marked.
* `declaration_does` and `statement_does` tie the rules of this and the last module together.
-/

namespace LoxMachine

variable {c c₀ c₁ c₂ c' : Compiler} {s : Shape}

/-- The state in which the draft around the innermost one is gone on with. -/
def Compiler.leave (c : Compiler) : Compiler :=
  match c.enclosing with
  | [] => { c with draft := .start .script none }
  | d :: enclosing => { c with draft := d, enclosing }

namespace Compile

set_option synthInstance.maxSize 16384

/-! ## Drafts -/

/-- The state `c₁` is inside of a function that was begun in the state `c`. -/
structure Inside (c c₁ : Compiler) : Prop where
  sound : c₁.Sound
  waits : List.Forall₂ (Draft.Waits c.heap c₁.heap) (c.draft :: c.enclosing) c₁.enclosing
  left : c₁.left ≤ c.left
  classes : c₁.classes = c.classes

theorem Inside.trans (h : Inside c c₁) (hc₂ : c₂.Sound) (hl : c₁.Later c₂)
    (hclasses : c₂.classes = c₁.classes) : Inside c c₂ :=
  ⟨hc₂, Compiler.forall₂_waits_trans h.waits hl.enclosing, hl.left.trans h.left,
    hclasses.trans h.classes⟩

/-- A draft is opened inside of the current one. -/
theorem beginFunction_ends (kind : FunctionKind) (hc : c.Sound) :
    Ends (beginFunction kind) c fun _ c₁ =>
      Inside c c₁ ∧ ∃ name, c₁.draft = .start kind (some name) := by
  unfold beginFunction
  refine Ends.bind (lexeme_does hc) fun text c₁ ⟨_, _, h₁⟩ => ?_
  obtain rfl := h₁
  refine Ends.bind (intern_does text hc) fun name c₂ ⟨hc₂, hl₂, h₂, hname⟩ _ => ?_
  have hnew : (Draft.start kind (some name)).Sound c₂.heap :=
    Draft.sound_start kind fun n hn => by
      cases hn
      exact hname
  have hwaits : c₁.draft.Waits c₁.heap c₂.heap c₂.draft :=
    ⟨hl₂.pool, h₂.code, h₂.arity, h₂.depth, by rw [h₂.locals]; exact .refl _⟩
  refine ⟨⟨⟨hc₂.calm, hc₂.ended, hc₂.tidy, fun d hd => ?_, fun cap hcap => ?_, hc₂.linked⟩,
    .cons hwaits hl₂.enclosing, hl₂.left, h₂.classes⟩, name, rfl⟩
  · rcases List.mem_cons.1 hd with rfl | hd
    · exact hnew
    · exact hc₂.drafts d hd
  · cases Array.not_mem_empty cap hcap

/-- Parameters are variables that are initialized, as many as there are arguments. -/
theorem parameters_does (n : Nat) (hdepth : 0 < c.draft.depth) :
    Does (parameters n) c fun _ c' => ∃ added, c'.draft.locals = added ++ c.draft.locals ∧
      (∀ l ∈ added, l.depth = some c.draft.depth) ∧
      c'.draft.arity = c.draft.arity + added.length ∧ c'.draft.depth = c.draft.depth ∧
      c'.classes = c.classes ∧ c'.draft.chunk.written = c.draft.chunk.written := by
  induction n generalizing c with
  | zero => exact .pure ⟨[], rfl, by simp, rfl, rfl, rfl, rfl⟩
  | succ n ih =>
    intro hc
    unfold parameters
    refine Does.bind (modifyDraft_does rfl rfl rfl rfl rfl hc.draft.locals_length)
      (fun _ c₁ _ _ h₁ => ?_) hc
    obtain ⟨rfl, -⟩ := h₁
    refine .get (.ite (fun _ => Does.bind (Q := fun _ _ => False) .errorAtCurrent
      fun _ _ _ _ hf => hf.elim) fun _ => ?_)
    refine (parseVariable_does _).bind fun global c₂ _ _ h₂ => ?_
    obtain ⟨name, hlocals₂⟩ := h₂.slot hdepth
    have hdepth₂ : c₂.draft.depth = c.draft.depth := h₂.depth
    refine Does.bind (Q := fun _ c₃ => c₃.draft.locals =
        { name, depth := some c.draft.depth } :: c.draft.locals ∧
        c₃.draft.arity = c.draft.arity + 1 ∧ c₃.draft.depth = c.draft.depth ∧
        c₃.classes = c.classes ∧ c₃.draft.chunk.written = c.draft.chunk.written) ?_
      fun _ c₃ _ _ ⟨hlocals₃, harity₃, hdepth₃, hclasses₃, hcode₃⟩ => ?_
    · unfold defineVariable
      refine .get (.ite (fun _ => ?_) fun h => absurd (hdepth₂ ▸ hdepth) h)
      refine markInitialized_does.mono fun _ c₃ _ _ h₃ => ?_
      obtain ⟨harity, hdepth₃, hclasses, hcode, -, hlocal, -⟩ := h₃
      refine ⟨?_, harity.trans h₂.arity, hdepth₃.trans hdepth₂, hclasses.trans h₂.classes,
        hcode.trans h₂.code⟩
      rw [hlocal (hdepth₂ ▸ hdepth) _ _ hlocals₂, hdepth₂]
    · refine (accept_does .comma).bind fun b c₄ _ _ h₄ => .ite (fun _ => ?_) fun _ => ?_
      · have hd₄ : c₄.draft.depth = c.draft.depth := h₄.1.depth.trans hdepth₃
        refine (ih (by rw [hd₄]; exact hdepth)).mono fun _ c₅ _ _ h₅ => ?_
        obtain ⟨added, hlocals, hfresh, harity, hdepth₅, hclasses, hcode⟩ := h₅
        refine ⟨added ++ [{ name, depth := some c.draft.depth }], ?_, fun l hl => ?_, ?_,
          hdepth₅.trans hd₄, hclasses.trans (h₄.1.classes.trans hclasses₃),
          hcode.trans (h₄.1.code.trans hcode₃)⟩
        · rw [hlocals, h₄.1.locals, hlocals₃]
          simp
        · rcases List.mem_append.1 hl with hl | hl
          · rw [← hd₄]
            exact hfresh l hl
          · rw [List.mem_singleton.1 hl]
        · rw [harity, h₄.1.arity, harity₃, List.length_append, List.length_singleton]
          omega
      · refine .pure ⟨[{ name, depth := some c.draft.depth }], by rw [h₄.1.locals, hlocals₃]; rfl,
          by simp, h₄.1.arity.trans harity₃, h₄.1.depth.trans hdepth₃,
          h₄.1.classes.trans hclasses₃, h₄.1.code.trans hcode₃⟩

/-- What is known of a draft when it is finished. -/
structure Finished (heap : Heap) (d : Draft) : Prop where
  sound : d.Sound heap
  laid : ∃ entry : Shape, entry.length = d.arity + 1 ∧
    WellLaid (d.pool heap) d.chunk.written { entry } none

/-- **The function of a finished draft is compiled.** -/
theorem compiled_alloc {heap : Heap} {d : Draft} (ht : heap.Tidy) (hd : Finished heap d)
    (roots : Thunk (List Handle)) :
    (heap.alloc roots (.function d.function)).2.Compiled
      (heap.alloc roots (.function d.function)).1 := by
  have ha := Heap.alloc_allocates ht roots (.function d.function)
  have hk : heap.Keeps d.handles (heap.alloc roots (.function d.function)).2 :=
    ha.keeps.mono fun r hr => List.mem_append_left _ hr
  have hsound := hd.sound.keep hk
  obtain ⟨entry, harity, hlaid⟩ := hd.laid
  refine .intro ha.new hsound.name hsound.constants harity ?_
  rw [← hd.sound.pool_keep hk] at hlaid
  exact hlaid

/-- The listing of a function is written to the journal, or nothing is. -/
theorem reportListing_records (d : Draft) (c : Compiler) : ∃ texts : List String,
    (reportListing d c).2 =
      { c with heap := (texts.map Event.compiled).foldl Heap.record c.heap } := by
  unfold reportListing
  simp only [modify, modifyGet, MonadStateOf.modifyGet, StateT.modifyGet, pure]
  split
  · split
    · exact ⟨[_], rfl⟩
    · exact ⟨[], rfl⟩
  · exact ⟨[], rfl⟩

/-- Reporting the code of a function changes no object. -/
theorem reportListing_eq (d : Draft) (c : Compiler) : ∃ heap : Heap,
    (reportListing d c).2 = { c with heap } ∧ (c.heap.Tidy → heap.Tidy) ∧
      ∀ x, heap.cell? x = c.heap.cell? x := by
  obtain ⟨texts, heq⟩ := reportListing_records d c
  exact ⟨_, heq, fun ht => ht.recorded _, Heap.cell?_recorded _ _⟩

theorem leave_sound (hc : c.Sound) : c.leave.Sound := by
  unfold Compiler.leave
  split
  · refine ⟨hc.calm, hc.ended, hc.tidy, fun d hd => ?_, ?_⟩
    · rename_i hnil
      rw [hnil, List.mem_singleton] at hd
      rw [hd]
      exact Draft.sound_start .script fun _ hn => by cases hn
    · rename_i hnil
      rw [hnil]
      rfl
  · rename_i d outer hcons
    have hlinked := hc.linked
    rw [hcons] at hlinked
    exact ⟨hc.calm, hc.ended, hc.tidy, fun e he => hc.drafts e (by
      rw [hcons]
      exact List.mem_cons_of_mem _ he), hlinked.2⟩

/-- The draft `d` has been finished since `c`, and the draft around it is gone on with. -/
structure Finishes (c : Compiler) (d : Draft) (c' : Compiler) : Prop where
  sound : c'.Sound
  finished : Finished c'.heap d
  arity : d.arity = c.draft.arity
  outermost : c.enclosing = [] → d.captures = #[]
  left : c'.left ≤ c.left
  classes : c'.classes = c.classes
  waits : c.enclosing ≠ [] →
    List.Forall₂ (Draft.Waits c.heap c'.heap) c.enclosing (c'.draft :: c'.enclosing)
  tied : c.enclosing ≠ [] → ∀ cap ∈ d.captures, cap.Tied c'.draft

/-- **A draft is finished.** Its captured variables are those of the draft around it. -/
theorem endFunction_ends (hc : c.Sound) {entry flags : Shape} (hflags : 0 < flags.length)
    (hentry : entry.length = c.draft.arity + 1) (hlaid : c.Laid { entry } (some flags)) :
    Ends endFunction c fun d c' => Finishes c d c' := by
  unfold endFunction
  refine Ends.bind (emitReturn_does hc) fun _ c₁ ⟨hc₁, hl₁, h₁⟩ _ => ?_
  have hlaid₁ : c₁.Laid { entry } none := h₁.2 flags hflags _ hlaid
  change Finishes c c₁.draft (reportListing c₁.draft c₁.leave).2
  obtain ⟨heap, heq, htidy, hcell⟩ := reportListing_eq c₁.draft c₁.leave
  rw [heq]
  have hleave := leave_sound hc₁
  have hheap : c₁.leave.heap = c₁.heap := by
    unfold Compiler.leave
    split <;> rfl
  have hkeeps : ∀ roots, c₁.heap.Keeps roots heap := fun _ x _ => by rw [hcell, hheap]
  obtain ⟨hsound, -⟩ := sound_keep hleave (htidy hleave.tidy) (fun x _ => hcell x)
  have hne : c.enclosing ≠ [] → ∃ d outer, c₁.enclosing = d :: outer ∧
      c₁.leave = { c₁ with draft := d, enclosing := outer } := by
    intro hne
    cases hcons : c₁.enclosing with
    | nil =>
      have hlength := List.Forall₂.length_eq hl₁.enclosing
      rw [hcons, List.length_nil, List.length_eq_zero_iff] at hlength
      exact absurd hlength hne
    | cons d outer => exact ⟨d, outer, rfl, by unfold Compiler.leave; rw [hcons]⟩
  refine ⟨hsound, ⟨hc₁.draft.keep (hkeeps _), entry, by rw [h₁.1.arity]; exact hentry, ?_⟩,
    h₁.1.arity, fun h => ?_, ?_, ?_, fun h => ?_, fun h => ?_⟩
  · rw [hc₁.draft.pool_keep (hkeeps _)]
    exact hlaid₁
  · have hwaits := hl₁.enclosing
    rw [h, List.forall₂_nil_left_iff] at hwaits
    have hlinked := hc₁.linked
    rw [hwaits] at hlinked
    exact hlinked
  · refine le_trans (le_of_eq ?_) hl₁.left
    unfold Compiler.leave Compiler.left
    split <;> rfl
  · refine Eq.trans ?_ h₁.1.classes
    unfold Compiler.leave
    split <;> rfl
  · obtain ⟨d, outer, hcons, hleave⟩ := hne h
    have hwaits := hl₁.enclosing
    rw [hcons] at hwaits
    rw [hleave]
    refine Compiler.forall₂_waits_trans hwaits (List.forall₂_same.2 fun e he => ?_)
    exact (hc₁.drafts e (by rw [hcons]; exact List.mem_cons_of_mem _ he)).waits (hkeeps _)
  · obtain ⟨d, outer, hcons, hleave⟩ := hne h
    have hlinked := hc₁.linked
    rw [hcons] at hlinked
    rw [hleave]
    exact hlinked.1

/-- When the inner draft is finished, the code of the outer one is as it was. -/
theorem Inside.finish {d : Draft} (h : Inside c c₁) (hf : Finishes c₁ d c₂) :
    c.Later c₂ ∧ c.Grows c₂ ∧ c₂.draft.chunk.written = c.draft.chunk.written ∧
      ∀ cap ∈ d.captures, cap.Tied c₂.draft := by
  have hne : c₁.enclosing ≠ [] := fun hnil => by
    have hlength := List.Forall₂.length_eq h.waits
    rw [hnil] at hlength
    cases hlength
  have hwaits := Compiler.forall₂_waits_trans h.waits (hf.waits hne)
  cases hwaits with
  | cons hd houter =>
    exact ⟨⟨hd.pool, houter, hf.left.trans h.left⟩,
      ⟨hd.arity, hd.depth, hf.classes.trans h.classes, hd.locals⟩, hd.code, hf.tied hne⟩

/-! ## Functions -/

/-- A function is made of a finished draft. -/
theorem alloc_does {d : Draft} (hd : Finished c.heap d) :
    Does (alloc (.function d.function)) c fun h c' => c.Stays c' ∧ c'.heap.Compiled h ∧
      c'.heap.constantKind (.obj h) = .function d.captures.size := by
  intro hc _
  let roots : Thunk (List Handle) := .mk fun _ => Compiler.handles c.roots c.draft c.enclosing
  have ha := Heap.alloc_allocates hc.tidy roots (.function d.function)
  obtain ⟨hs, hl⟩ := sound_keep hc ha.tidy (ha.keeps.mono fun r hr => List.mem_append_right _ hr)
  refine ⟨hs, hl, ⟨⟨rfl, rfl, rfl, rfl⟩, rfl⟩, compiled_alloc hc.tidy hd roots, ?_⟩
  change (c.heap.alloc roots (.function d.function)).2.constantKind
    (.obj (c.heap.alloc roots (.function d.function)).1) = _
  rw [Heap.constantKind, ha.new, ← hd.sound.counted]
  rfl

/-- The bytes that name the captured variables are written. -/
theorem captures_does (captures : List Capture) :
    Does (captures.forM fun cap => do
      emitByte (if cap.isLocal then 1 else 0)
      emitByte cap.index) c fun _ c' => c.Writes (captures.flatMap Capture.bytes) c' := by
  induction captures generalizing c with
  | nil => exact .pure ⟨.refl c, rfl, (Written.write_nil _ _).symm, rfl⟩
  | cons cap captures ih =>
    refine Does.bind (Q := fun _ c₁ => c.Writes cap.bytes c₁) ?_ fun _ c₁ _ _ h₁ => ?_
    · refine (emitByte_does _).bind fun _ c₁ _ _ h₁ => ?_
      exact (emitByte_does cap.index).mono fun _ c₂ _ _ h₂ => h₁.trans h₂
    · exact ih.mono fun _ c₂ _ _ h₂ => h₁.trans h₂

/-- A closure is made in the code, and the variables that it captures are marked. -/
structure Encloses (c c' : Compiler) : Prop extends c.Grows c' where
  moves : ∀ s s' : Shape, Shape.Le (false :: s) s' →
    (∀ i l, c'.draft.locals.reverse[i]? = some l → l.captured = true → s'.slot? i = some true) →
    c.Moves c' (some s) (some s')

/-- Methods are added to the class on top of the stack. -/
structure Extends (c c' : Compiler) : Prop extends c.Grows c' where
  moves : ∀ flags, Covers c'.draft.locals flags →
    c.Moves c' (some (false :: flags)) (some (false :: flags))

theorem Extends.refl (c : Compiler) : Extends c c :=
  ⟨(Compiler.Within.refl c).grows, fun _ _ _ h => h⟩

theorem Extends.trans (h : Extends c c₁) (h' : Extends c₁ c₂) : Extends c c₂ :=
  ⟨h.toGrows.trans h'.toGrows, fun flags hf =>
    (h.moves flags (hf.of_grow h'.locals)).trans (h'.moves flags hf)⟩

theorem classes_does (f : List ClassScope → List ClassScope) :
    Does (modify fun c => { c with classes := f c.classes }) c fun _ c' =>
      c' = { c with classes := f c.classes } :=
  fun hc _ => ⟨⟨hc.calm, hc.ended, hc.tidy, hc.drafts, hc.linked⟩,
    ⟨.refl _, Compiler.forall₂_waits_refl, le_rfl⟩, rfl⟩

/-- The closure of a finished draft is made. -/
theorem closure_does {d : Draft} (hd : Finished c.heap d)
    (htied : ∀ cap ∈ d.captures, cap.Tied c.draft) :
    Does (do
      let h ← alloc (.function d.function)
      emitWith .closure (← makeConstant (.obj h))
      d.captures.forM fun c => do
        emitByte (if c.isLocal then 1 else 0)
        emitByte c.index) c fun _ c' => Encloses c c' := by
  refine (alloc_does hd).bind fun h c₁ _ hl₁ ⟨h₁, hcompiled, hkind⟩ => ?_
  refine (makeConstant_does (.obj h) fun x hx _ => by cases hx; exact hcompiled).bind
    fun i c₂ _ hl₂ ⟨h₂, hconstant⟩ => ?_
  refine (emitWith_does .closure i).bind fun _ c₃ _ _ h₃ => ?_
  have hlist : ∀ f : Capture → Compile Unit, d.captures.forM f = d.captures.toList.forM f :=
    fun f => List.forM_toArray' d.captures.toList f rfl
  rw [hlist]
  refine (captures_does d.captures.toList).mono fun _ c₄ _ _ h₄ => ?_
  have hwrites := h₃.trans h₄
  have hstays := h₁.trans h₂
  have hwithin := hstays.toWithin.trans hwrites.toWithin
  refine ⟨hwithin.grows, fun s s' hle hmarked => ?_⟩
  refine (hstays.moves (hl₁.trans hl₂) (some s)).trans fun sketch hlaid => ?_
  unfold Compiler.Laid
  rw [hwrites.written, hwrites.pool]
  refine WellLaid.closure hlaid ?_ hle fun cap hcap => ?_
  · rw [hconstant, hkind, Array.length_toList]
  · have ht := htied cap (Array.mem_toList_iff.1 hcap)
    unfold Capture.Exists
    split
    · rename_i hlocal
      obtain ⟨l, hget, hcaptured⟩ := ht.marked hlocal
      exact hmarked _ l (by rw [hwithin.locals]; exact hget) hcaptured
    · rename_i hlocal
      exact (ht.index_lt (by simpa using hlocal)).trans_le (hl₁.trans hl₂).pool.upvalues

/-- A draft of which the parameters have been read. -/
structure Begun (c : Compiler) : Prop extends c.Scoped where
  arity : c.draft.locals.length = c.draft.arity + 1
  code : c.draft.chunk.written = .empty

theorem begun_of_parameters (added : List Local) {name : String}
    (hlocals : c.draft.locals = added ++ [{ name, depth := some 0 }])
    (hfresh : ∀ l ∈ added, l.depth = some 1) (harity : c.draft.arity = added.length)
    (hdepth : c.draft.depth = 1) (hcode : c.draft.chunk.written = .empty) : Begun c := by
  refine ⟨⟨by simp [hlocals], fun l hl => ?_⟩, by simp [hlocals, harity], hcode⟩
  rw [hdepth]
  rw [hlocals] at hl
  rcases List.mem_append.1 hl with hl | hl
  · exact ⟨1, hfresh l hl, le_rfl⟩
  · rw [List.mem_singleton.1 hl]
    exact ⟨0, rfl, Nat.zero_le 1⟩

theorem Begun.stays (h : Begun c) (hs : c.Stays c') : Begun c' := by
  refine ⟨hs.toWithin.grows.scoped h.toScoped, ?_, hs.code.trans h.code⟩
  rw [hs.locals, hs.arity]
  exact h.arity

/-- **The body of a function is laid out for the variables that are captured at its end.** -/
theorem Begun.laid {added : List Local} (hbegun : Begun c) (h : c.Declares c₁ added) :
    ∃ entry flags : Shape, 0 < flags.length ∧ entry.length = c₁.draft.arity + 1 ∧
      c₁.Laid { entry } (some flags) := by
  obtain ⟨old, hlocals, hgrow⟩ := h.locals
  have hlength := List.Forall₂.length_eq hgrow
  have hpos := hbegun.nonempty
  have hcovers : Covers (c₁.draft.locals ++ []) (c₁.draft.locals.map (·.captured) ++ []) :=
    covers_append c₁.draft.locals .nil
  rw [List.append_nil, List.append_nil] at hcovers
  refine ⟨(c₁.draft.locals.map (·.captured)).drop added.length, _, ?_, ?_,
    h.moves _ hcovers _ ?_⟩
  · rw [List.length_map, hlocals, List.length_append]
    omega
  · rw [List.length_drop, List.length_map, hlocals, List.length_append, h.arity, ← hbegun.arity]
    omega
  · unfold Compiler.Laid
    rw [hbegun.code]
    exact wellLaid_empty _ _

section Rules

variable {expr stmt decl : Compile Unit} [Orderly expr] [Orderly stmt] [Orderly decl]
  {fuel n : Nat} (hp : Parsers expr stmt decl n)

omit [expr.Orderly] [stmt.Orderly] in
include hp in
/-- The body of a function and its closure. -/
theorem bodyClosure_ends (h : Inside c c₁) (hbegun : Begun c₁) (hleft : 2 * c.left + 2 < n) :
    Ends (do
      consume .rightParen .rightParenAfterParameters
      consume .leftBrace .leftBraceBeforeFunctionBody
      block decl fuel
      let d ← endFunction
      let h ← alloc (.function d.function)
      emitWith .closure (← makeConstant (.obj h))
      d.captures.forM fun c => do
        emitByte (if c.isLocal then 1 else 0)
        emitByte c.index) c₁ fun _ c' => c'.Sound ∧ c.Later c' ∧ Encloses c c' := by
  refine Ends.bind (consume_does _ _ h.sound) fun _ c₂ ⟨hc₂, hl₂, h₂⟩ => ?_
  refine Ends.bind (consume_does _ _ hc₂) fun _ c₃ ⟨hc₃, hl₃, h₃⟩ => ?_
  have h₁₃ := h₂.trans h₃
  have hinside₃ := h.trans hc₃ (hl₂.trans hl₃) h₁₃.classes
  have hbegun₃ := hbegun.stays h₁₃
  refine Ends.bind (block_does hp hbegun₃.toScoped (by have := hinside₃.left; omega) hc₃)
    fun _ c₄ ⟨hc₄, hl₄, added, h₄⟩ => ?_
  obtain ⟨entry, flags, hflags, hentry, hlaid⟩ := hbegun₃.laid h₄
  refine Ends.bind (endFunction_ends hc₄ hflags hentry hlaid) fun d c₅ h₅ => ?_
  obtain ⟨hl₅, hgrows, hcode, htied⟩ := (hinside₃.trans hc₄ hl₄ h₄.classes).finish h₅
  refine (closure_does h₅.finished htied h₅.sound).mono fun _ c₆ ⟨hc₆, hl₆, h₆⟩ => ?_
  refine ⟨hc₆, hl₅.trans hl₆, hgrows.trans h₆.toGrows, fun s s' hle hmarked => ?_⟩
  exact (hl₅.moves hcode (some s)).trans (h₆.moves s s' hle hmarked)

omit [expr.Orderly] [stmt.Orderly] in
include hp in
/-- **A function becomes a closure of the function around it.** -/
theorem functionBody_does (kind : FunctionKind) (hleft : 2 * c.left + 2 < n) :
    Does (functionBody decl fuel kind) c fun _ c' => Encloses c c' := by
  intro hc
  unfold functionBody
  dsimp only
  refine Ends.bind (beginFunction_ends kind hc) fun _ c₁ h => ?_
  obtain ⟨h₁, name, hdraft⟩ := h
  refine Ends.bind (beginScope_does h₁.sound) fun _ c₂ h => ?_
  obtain ⟨hc₂, hl₂, h₂⟩ := h
  refine Ends.bind (consume_does _ _ hc₂) fun _ c₃ h => ?_
  obtain ⟨hc₃, hl₃, h₃⟩ := h
  refine Ends.bind (check_does _ hc₃) fun b c₃' h => ?_
  obtain ⟨-, -, rfl, -⟩ := h
  have hinside₃ := h₁.trans hc₃ (hl₂.trans hl₃) (h₃.classes.trans (by rw [h₂]; rfl))
  have hlocals₃ : c₃'.draft.locals = [{ name := Draft.receiver kind, depth := some 0 }] := by
    simp [h₃.locals, h₂, Compiler.opened, hdraft, Draft.start]
  have hcode₃ : c₃'.draft.chunk.written = .empty := by
    rw [h₃.code, h₂, Compiler.opened, hdraft]
    rfl
  have harity₃ : c₃'.draft.arity = 0 := by
    simp [h₃.arity, h₂, Compiler.opened, hdraft, Draft.start]
  have hdepth₃ : c₃'.draft.depth = 1 := by
    simp [h₃.depth, h₂, Compiler.opened, hdraft, Draft.start]
  split
  · refine Ends.bind (parameters_does fuel (by rw [hdepth₃]; exact Nat.one_pos) hc₃)
      fun _ c₄ h => ?_
    obtain ⟨hc₄, hl₄, added, hlocals, hfresh, harity, hdepth, hclasses, hcode⟩ := h
    rw [hlocals₃] at hlocals
    rw [harity₃, Nat.zero_add] at harity
    rw [hdepth₃] at hfresh hdepth
    exact bodyClosure_ends hp (hinside₃.trans hc₄ hl₄ hclasses)
      (begun_of_parameters added hlocals hfresh harity hdepth (hcode.trans hcode₃)) hleft
  · exact bodyClosure_ends hp hinside₃
      (begun_of_parameters [] hlocals₃ (by simp) harity₃ hdepth₃ hcode₃) hleft

include hp in
omit [expr.Orderly] [stmt.Orderly] in
/-- The name of a function can be used in its body, before the variable has its value. -/
theorem funDeclaration_does (hleft : 2 * c.left + 2 < n) :
    Does (funDeclaration decl fuel) c fun _ c' => ∃ added, c.Declares c' added := by
  unfold funDeclaration
  refine (parseVariable_does _).bind fun global c₁ _ hl₁ h₁ => ?_
  refine markInitialized_does.bind fun _ c₂ _ hl₂ h₂ => ?_
  obtain ⟨harity, hdepth, hclasses, hcode, -, hlocal, hglobal⟩ := h₂
  have hl₀₂ := hl₁.trans hl₂
  refine (functionBody_does hp .function (by have := hl₀₂.left; omega)).bind
    fun _ c₃ _ hl₃ h₃ => ?_
  have hmoves := hl₀₂.moves (hcode.trans h₁.code)
  refine defineVariable_does ⟨h₃.arity.trans (harity.trans h₁.arity),
    h₃.depth.trans (hdepth.trans h₁.depth), h₃.classes.trans (hclasses.trans h₁.classes),
    fun hpos => ?_, fun hzero => ?_⟩
  · obtain ⟨name, hlocals₁⟩ := h₁.slot hpos
    have hgrow := h₃.locals
    rw [hlocal (by rw [h₁.depth]; exact hpos) _ _ hlocals₁] at hgrow
    obtain ⟨l, old, -, hold, hlocals₃⟩ := List.forall₂_cons_left_iff.1 hgrow
    refine ⟨l, old, hlocals₃, hold, fun b flags hf => (hmoves _).trans ?_⟩
    refine h₃.moves flags (b :: flags) (.cons_false b (.refl flags)) fun i l hget hl => ?_
    rw [hlocals₃] at hget
    exact hf.slot? hget hl
  · obtain ⟨hlocals₁, hconstant⟩ := h₁.global hzero
    have hgrow := h₃.locals
    rw [hglobal (h₁.depth.trans hzero), hlocals₁] at hgrow
    refine ⟨hgrow, (hl₂.trans hl₃).pool.constant hconstant, fun flags hf => (hmoves _).trans ?_⟩
    exact h₃.moves flags (false :: flags) (.refl _) fun i l hget hl => hf.slot?_above hget hl [false]

/-! ## Classes -/

include hp in
omit [expr.Orderly] [stmt.Orderly] in
/-- A method leaves the class on top of the stack. -/
theorem method_does (hleft : 2 * c.left + 2 < n) :
    Does (method decl fuel) c fun _ c' => Extends c c' := by
  unfold method
  refine (consume_does _ _).bind fun _ c₁ _ hl₁ h₁ => ?_
  refine lexeme_does.bind fun name c₂ _ _ h => ?_
  obtain rfl := h
  refine (nameConstant_does name).bind fun constant c₃ _ hl₃ ⟨h₃, hconstant⟩ => ?_
  have hl₀₃ := hl₁.trans hl₃
  refine (functionBody_does hp _ (by have := hl₀₃.left; omega)).bind fun _ c₄ _ hl₄ h₄ => ?_
  refine (emitWith_does .method constant).mono fun _ c₅ _ _ h₅ => ?_
  have hstays := h₁.trans h₃
  refine ⟨hstays.toWithin.grows.trans (h₄.toGrows.trans h₅.toWithin.grows), fun flags hf => ?_⟩
  rw [h₅.locals] at hf
  have hclosure := h₄.moves (false :: flags) (false :: false :: flags) (.refl _)
    fun i l hget hl => hf.slot?_above hget hl [false, false]
  refine (hstays.moves hl₀₃ _).trans (hclosure.trans ?_)
  exact h₅.plain (n := 0) ⟨rfl, hl₄.pool.constant hconstant⟩ (by simp [Opcode.needs])
    (by simp [Opcode.pops])

omit [Orderly expr] [Orderly stmt] [Orderly decl] in
/-- The superclass is a variable of a scope around the class. -/
theorem superclass_does (name : String) (hscoped : c.Scoped) :
    Does (superclass name) c fun _ c' => ∃ added,
      { c.opened with classes := { hasSuperclass := true } :: c.classes.drop 1 }.Declares c'
        added := by
  unfold superclass
  dsimp only
  refine (consume_does _ _).bind fun _ c₁ _ hl₁ h₁ => ?_
  refine lexeme_does.bind fun super c₂ _ _ h => ?_
  obtain rfl := h
  refine (readVariable_does super).bind fun _ c₃ _ hl₃ ⟨h₃, hmoves₃⟩ => ?_
  refine lexeme_does.bind fun super' c₄ _ _ h => ?_
  obtain rfl := h
  refine .ite (fun _ => .error_bind) fun _ => ?_
  refine beginScope_does.bind fun _ c₅ _ hl₅ h₅ => ?_
  refine (addLocal_does "super").bind fun _ c₆ _ hl₆ h₆ => ?_
  subst h₅
  subst h₆
  have hwithin := h₁.toWithin.trans h₃
  refine Does.bind (defineVariable_does (c := c.opened) ⟨hwithin.arity, ?_, hwithin.classes,
    fun _ => ⟨_, _, rfl, ?_, fun b flags hf => ?_⟩, fun hzero => ?_⟩) fun _ c₇ _ hl₇ ⟨added, h₇⟩ => ?_
  · exact congrArg (· + 1) hwithin.depth
  · change LocalsGrow c.draft.locals c₄.draft.locals
    rw [hwithin.locals]
    exact .refl _
  · cases hf with
    | cons _ hf =>
      have hread := hmoves₃ flags (by rw [h₁.locals, ← hwithin.locals]; exact Covers.settled_le hf)
      have hvalue := ((h₁.moves hl₁ _).trans hread).weaken (s := b :: flags) fun s hs => by
        cases hs
        exact .cons_false b (.refl flags)
      exact hvalue.trans ((hl₅.trans hl₆).moves rfl _)
  · cases hzero
  refine (readVariable_does name).bind fun _ c₈ _ hl₈ ⟨h₈, hmoves₈⟩ => ?_
  refine (emit_does .inherit).bind fun _ c₉ _ hl₉ h₉ => ?_
  refine (classes_does fun cs => { hasSuperclass := true } :: cs.drop 1).mono
    fun _ c₁₀ _ _ h₁₀ => ?_
  subst h₁₀
  have hscoped₇ := h₇.scoped hscoped.enter
  have hinherit : c₇.Declares c₉ [] := by
    refine (h₈.trans h₉.toWithin).declares fun flags hf => ?_
    have hpos := hscoped₇.nonempty
    rw [hf.length_eq] at hpos
    refine (hmoves₈ flags hf.settled_le).trans ?_
    exact h₉.plain (n := 0) ⟨by simp, rfl⟩ (Nat.succ_le_succ hpos)
      (by simp [Opcode.pops])
  obtain ⟨all, hall, -⟩ := h₇.trans hinherit
  have hclasses : c₉.classes = c.classes := hall.classes
  refine ⟨all, hall.arity, hall.depth, ?_, hall.locals, hall.fresh, hall.moves⟩
  rw [hclasses]

include hp in
omit [expr.Orderly] [stmt.Orderly] in
/-- The body of a class, and the end of its scope. -/
theorem classBody_does (name : String) (scope : ClassScope) (hscoped : c.Scoped)
    (hleft : 2 * c₁.left + 2 < n) {added : List Local}
    (h : { (if scope.hasSuperclass then c.opened else c) with
      classes := scope :: c.classes }.Declares c₁ added) :
    Does (classBody decl fuel name) c₁ fun _ c' => ∃ added, c.Declares c' added := by
  have hscoped₁ : c₁.Scoped := h.scoped (by
    split
    · exact ⟨hscoped.enter.nonempty, hscoped.enter.opened⟩
    · exact ⟨hscoped.nonempty, hscoped.opened⟩)
  unfold classBody
  dsimp only
  refine (readVariable_does name).bind fun _ c₂ _ hl₂ ⟨h₂, hmoves₂⟩ => ?_
  refine (consume_does _ _).bind fun _ c₃ _ hl₃ h₃ => ?_
  refine Does.bind (Does.loop (I := fun c' => Extends c₃ c' ∧ c'.left ≤ c₁.left)
    (J := fun c' => Extends c₃ c' ∧ c'.left ≤ c₁.left) (fun c' hI => ?_) (fun c' hJ => ?_) fuel
    ⟨.refl c₃, (hl₂.trans hl₃).left⟩) fun _ c₄ _ hl₄ h₄ => ?_
  · refine (check_does .rightBrace).bind fun b c₄ _ _ h₄ => ?_
    obtain ⟨rfl, -⟩ := h₄
    refine (check_does .eof).bind fun b' c₅ _ _ h₅ => ?_
    obtain ⟨rfl, -⟩ := h₅
    exact .pure (by split <;> exact hI)
  · refine (method_does hp (by omega)).mono fun _ c₄ _ hl₄ h₄ => ?_
    exact ⟨hJ.1.trans h₄, hl₄.left.trans hJ.2⟩
  refine (consume_does _ _).bind fun _ c₅ _ hl₅ h₅ => ?_
  refine (emit_does .pop).bind fun _ c₆ _ hl₆ h₆ => .get ?_
  have hbody : c₁.Declares c₆ [] := by
    refine ((h₂.trans h₃.toWithin).grows.trans
      (h₄.1.toGrows.trans (h₅.toWithin.trans h₆.toWithin).grows)).declares fun flags hf => ?_
    rw [h₆.locals, h₅.locals] at hf
    have hread := hmoves₂ flags (by
      rw [← h₂.locals, ← h₃.locals]
      exact (hf.of_grow h₄.1.locals).settled_le)
    have hmethods := (h₃.moves hl₃ _).trans ((h₄.1.moves flags hf).trans (h₅.moves hl₅ _))
    exact hread.trans (hmethods.trans (h₆.pop (Or.inl rfl)))
  obtain ⟨all, hall, -⟩ := h.trans hbody
  have hclasses : c₆.classes = scope :: c.classes := hall.classes
  refine (classes_does (·.drop 1)).bind fun _ c₇ _ _ h₇ => ?_
  subst h₇
  rw [hclasses]
  refine .ite (fun hs => ?_) fun hs => ?_
  · have hs : scope.hasSuperclass = true := by simpa using hs
    rw [if_pos hs] at hall
    have hopened : c.opened.Declares { c₆ with classes := c.classes } all :=
      ⟨hall.arity, hall.depth, rfl, hall.locals, hall.fresh, hall.moves⟩
    exact (endScope_does hscoped hopened).mono fun _ c₈ _ _ h₈ => ⟨[], h₈⟩
  · have hs : scope.hasSuperclass = false := by simpa using hs
    rw [if_neg (by rw [hs]; exact Bool.false_ne_true)] at hall
    exact .pure ⟨all, hall.arity, hall.depth, rfl, hall.locals, hall.fresh, hall.moves⟩

include hp in
omit [expr.Orderly] [stmt.Orderly] in
/-- The name of a class can be used in its methods. -/
theorem classDeclaration_does (hscoped : c.Scoped) (hleft : 2 * c.left + 2 < n) :
    Does (classDeclaration decl fuel) c fun _ c' => ∃ added, c.Declares c' added := by
  unfold classDeclaration
  dsimp only
  refine (consume_does _ _).bind fun _ c₁ _ hl₁ h₁ => ?_
  refine lexeme_does.bind fun name c₁' _ _ h => ?_
  obtain rfl := h
  refine (nameConstant_does name).bind fun constant c₂ _ hl₂ h => ?_
  obtain ⟨h₂, hconstant⟩ := h
  refine declareVariable_does.bind fun _ c₃ _ hl₃ h₃ => ?_
  obtain ⟨harity, hdepth, hclasses, hcode, hpool, hlocal, hglobal⟩ := h₃
  refine (emitWith_does .cls constant).bind fun _ c₄ _ hl₄ h₄ => ?_
  have hstays := h₁.trans h₂
  have hl₀₃ := (hl₁.trans hl₂).trans hl₃
  have hmoves : ∀ flags, c.Moves c₄ (some flags) (some (false :: flags)) := fun flags =>
    (hl₀₃.moves (hcode.trans hstays.code) _).trans
      (h₄.plain (n := 0) ⟨rfl, by rw [hpool]; exact hconstant⟩ (Nat.zero_le _)
        (by simp [Opcode.pops]))
  refine Does.bind (defineVariable_does (c := c) ⟨h₄.arity.trans (harity.trans hstays.arity),
    h₄.depth.trans (hdepth.trans hstays.depth), h₄.classes.trans (hclasses.trans hstays.classes),
    fun hpos => ?_, fun hzero => ?_⟩) fun _ c₅ _ hl₅ h => ?_
  · obtain ⟨l, hlocals⟩ := hlocal (by rw [hstays.depth]; exact hpos)
    rw [← h₄.locals, hstays.locals] at hlocals
    refine ⟨_, _, hlocals, .refl _, fun b flags _ => (hmoves flags).weaken fun s hs => ?_⟩
    cases hs
    exact .cons_false b (.refl flags)
  · have hlocals := hglobal (hstays.depth.trans hzero)
    rw [← h₄.locals, hstays.locals] at hlocals
    refine ⟨by rw [hlocals]; exact .refl _, ?_, fun flags _ => hmoves flags⟩
    rw [h₄.pool, hpool]
    exact hconstant
  obtain ⟨added, h₅⟩ := h
  have hl₀₅ := (hl₀₃.trans hl₄).trans hl₅
  have hscoped₅ := h₅.scoped hscoped
  refine (classes_does fun cs => {} :: cs).bind fun _ c₆ _ hl₆ h₆ => ?_
  subst h₆
  refine (accept_does _).bind fun b c₇ _ hl₇ h => .ite (fun _ => ?_) fun _ => ?_
  · have h₇ := h.1
    refine (superclass_does name ?_).bind fun _ c₈ _ hl₈ h => ?_
    · exact (h₇.declares hl₇).scoped ⟨hscoped₅.nonempty, hscoped₅.opened⟩
    obtain ⟨added', h₈⟩ := h
    have hdepth₇ : c₇.draft.depth = c₅.draft.depth := h₇.depth
    have hclasses₇ : c₇.classes = {} :: c₅.classes := h₇.classes
    have hlocals₇ : c₇.draft.locals = c₅.draft.locals := h₇.locals
    have hinherits : { c₅.opened with
        classes := { hasSuperclass := true } :: c₅.classes }.Declares c₈ added' := by
      refine ⟨h₈.arity.trans h₇.arity, h₈.depth.trans (congrArg (· + 1) hdepth₇), ?_, ?_,
        fun l hl => (h₈.fresh l hl).trans (congrArg (fun k => some (k + 1)) hdepth₇),
        fun flags hf => (hl₇.moves h₇.code _).trans (h₈.moves flags hf)⟩
      · rw [h₈.classes, hclasses₇]
        rfl
      · obtain ⟨old, hlocals, hgrow⟩ := h₈.locals
        have hgrow : LocalsGrow c₇.draft.locals old := hgrow
        rw [hlocals₇] at hgrow
        exact ⟨old, hlocals, hgrow⟩
    have hleft₈ := (((hl₀₅.trans hl₆).trans hl₇).trans hl₈).left
    refine (classBody_does hp name { hasSuperclass := true } hscoped₅ (by omega) hinherits).mono
      fun _ c₉ _ _ h => ?_
    obtain ⟨added₉, h₉⟩ := h
    obtain ⟨all, hall, -⟩ := h₅.trans h₉
    exact ⟨all, hall⟩
  · have hleft₇ := ((hl₀₅.trans hl₆).trans hl₇).left
    refine (classBody_does hp name {} hscoped₅ (by omega) (h.1.declares hl₇)).mono
      fun _ c₈ _ _ h => ?_
    obtain ⟨added', h₈⟩ := h
    obtain ⟨all, hall, -⟩ := h₅.trans h₈
    exact ⟨all, hall⟩

omit [Orderly expr] [Orderly stmt] [Orderly decl] in
/-- Without errors there is nothing to recover from. -/
theorem recover_does {Q : Unit → Compiler → Prop} (hQ : Q () c) :
    Does (do if (← get).panicking then synchronize fuel) c Q := by
  intro hc
  refine Does.get (.ite (fun hpanic => ?_) fun _ => .pure hQ) hc
  rw [hc.calm] at hpanic
  cases hpanic

include hp in
theorem declarationRule_does (hscoped : c.Scoped) (hleft : 2 * c.left + 1 < n) :
    Does (declarationRule expr stmt decl fuel) c fun _ c' => ∃ added, c.Declares c' added := by
  have hafter : ∀ c₁ : Compiler, c.Stays c₁ → c.Later c₁ → ∀ {x : Compile Unit},
      Does x c₁ (fun _ c' => ∃ added, c₁.Declares c' added) →
      Does (do
        x
        if (← get).panicking then synchronize fuel) c₁
          fun _ c' => ∃ added, c.Declares c' added := by
    intro c₁ h₁ hl₁ x hx
    refine hx.bind fun _ c₂ _ _ ⟨added, h₂⟩ => recover_does ?_
    obtain ⟨all, hall, -⟩ := (h₁.declares hl₁).trans h₂
    exact ⟨all, hall⟩
  unfold declarationRule
  dsimp only
  refine (accept_does .kwClass).bind fun b c₁ _ hl₁ ⟨h₁, hb₁⟩ => .ite (fun hb => ?_) fun _ => ?_
  · have hlt := hb₁ hb (by simp)
    exact hafter c₁ h₁ hl₁ (classDeclaration_does hp (h₁.toWithin.grows.scoped hscoped) (by omega))
  refine (accept_does .kwFun).bind fun b c₂ _ hl₂ ⟨h₂, hb₂⟩ => .ite (fun hb => ?_) fun _ => ?_
  · have hlt := hb₂ hb (by simp)
    have := hl₁.left
    exact hafter c₂ (h₁.trans h₂) (hl₁.trans hl₂) (funDeclaration_does hp (by omega))
  refine (accept_does .kwVar).bind fun b c₃ _ hl₃ ⟨h₃, hb₃⟩ => ?_
  have h₀₃ := (h₁.trans h₂).trans h₃
  have hl₀₃ := (hl₁.trans hl₂).trans hl₃
  have hle := hl₀₃.left
  refine .ite (fun hb => ?_) fun _ => ?_
  · exact hafter c₃ h₀₃ hl₀₃ (varDeclaration_does hp (by omega))
  · refine hafter c₃ h₀₃ hl₀₃ ?_
    exact (hp.stmt c₃ (h₀₃.toWithin.grows.scoped hscoped) (by omega)).mono
      fun _ c₄ _ _ h₄ => ⟨[], h₄⟩

end Rules

/-! ## The parser -/

/-- **Statements leave the stack as it was, and declarations add their variables.** -/
theorem parsers (n : Nat) : Parsers (expression n) (statement n) (declaration n) n := by
  induction n with
  | zero => exact ⟨fun _ h => by omega, fun _ _ h => by omega, fun _ _ h => by omega⟩
  | succ n ih =>
    refine ⟨fun c hleft => expression_does hleft, fun c hscoped hleft => ?_,
      fun c hscoped hleft => ?_⟩
    · exact statementRule_does ih hscoped (by omega)
    · exact declarationRule_does ih hscoped (by omega)

end Compile

end LoxMachine
