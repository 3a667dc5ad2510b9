import LoxMachine.Proofs.Symbolic.Emitting

/-!
# Scopes in symbolic code

* `declareName_emits` and `defineVariable_emits`: what the declaration of a variable writes.
* `endScope_ends`: the end of a scope takes its variables off the stack. Those that functions in the scope
  have captured move off it.
-/

namespace LoxMachine

open Compile Symbolic

set_option synthInstance.maxSize 4096

variable {α : Type} {c c₀ : Compiler} {σ τ : Setting} {x : Compile α} {a : Code} {ps : List (Nat × Nat)}
  {Q : α → Compiler → Prop}

/-! ## Slots -/

namespace Draft

variable {d : Draft} {l : Local} {locals : List Local} {slot n : Nat}

/-- A new variable has not been captured yet. -/
theorem holds_cons (hl : l.captured = false) :
    Holds { d with locals := l :: locals } slot ↔ Holds { d with locals } slot := by
  unfold Holds
  rw [getElem?_slots_cons]
  split
  · subst slot
    rw [List.getElem?_eq_none (by simp)]
    simp [hl]
  · exact Iff.rfl

theorem lt_of_holds (h : d.Holds slot) : slot < d.locals.length := by
  obtain ⟨l, hl, -⟩ := h
  have hlt := (List.getElem?_eq_some_iff.1 hl).1
  rwa [List.length_reverse] at hlt

/-- The variables that have been declared first. -/
theorem holds_drop {k : Nat} (hlength : d.locals.length = n + k) :
    Holds { d with locals := d.locals.drop k } slot ↔ slot < n ∧ d.Holds slot := by
  have htake : (d.locals.drop k).reverse = d.locals.reverse.take n := by
    rw [List.reverse_drop, hlength, Nat.add_sub_cancel]
  change (∃ l, (d.locals.drop k).reverse[slot]? = some l ∧ _) ↔ _
  rw [htake, List.getElem?_take]
  split <;> simp [Holds, *]

end Draft

/-- The last variables, and the slots that they have. -/
theorem map_take_slots {α : Type} {locals : List Local} {n k : Nat} (hlength : locals.length = n + k)
    {f : Local → α} {g : Nat → α}
    (h : ∀ slot l, n ≤ slot → locals.reverse[slot]? = some l → f l = g slot) :
    (locals.take k).map f = (List.range' n k).reverse.map g := by
  have htake : locals.take k = (locals.reverse.drop n).reverse := by
    rw [List.reverse_drop, List.reverse_reverse, List.length_reverse, hlength, Nat.add_sub_cancel_left]
  rw [htake, List.map_reverse, List.map_reverse, List.reverse_inj]
  apply List.ext_getElem
  · simp [hlength]
  · intro i hi hi'
    rw [List.getElem_map, List.getElem_map, List.getElem_range', Nat.one_mul]
    refine h _ _ (Nat.le_add_right n i) ?_
    rw [List.getElem_drop, List.getElem?_eq_getElem]

namespace Compile

/-- An action that changes which variables are in scope. It writes and captures nothing. -/
theorem Emits.of_locals {P : Prop} {f : Footprint} (hc : c.Ongoing σ) (hcosts : Costs x c P f τ Q)
    (hrun : (x c).2.errors = #[] → ∃ locals depth,
      (x c).2 = { c with draft := { c.draft with locals, depth } } ∧
        ∀ slot, Draft.Holds { c.draft with locals } slot ↔ c.draft.Holds slot) :
    Emits x c [] [] τ Q := by
  intro herr
  obtain ⟨locals, depth, heq, hheld⟩ := hrun herr
  obtain ⟨hstands, -, hQ⟩ := hcosts.ends herr
  have hadds : c.Adds [] [] (x c).2 := by
    rw [heq]
    exact .of_draft (List.append_nil _).symm List.prefix_rfl rfl rfl hheld rfl rfl (.refl _ _)
  refine ⟨⟨hstands, ?_⟩, ⟨⟨[], hadds, .nil _⟩, ?_⟩, hQ⟩
  · rw [heq]
    exact hc.tidy
  · rw [heq]

/-! ## Variables enter scopes -/

theorem beginScope_emits (hc : c.Ongoing σ) : Emits beginScope c [] [] σ.enter fun _ _ => True :=
  .of_locals hc (beginScope_costs hc.toStands) fun _ =>
    ⟨c.draft.locals, c.draft.depth + 1, rfl, fun _ => Iff.rfl⟩

theorem addLocal_emits (hc : c.Ongoing σ) (name : String) :
    Emits (addLocal name) c [] [] { σ with here := σ.here.push name none } fun _ _ => True := by
  refine .of_locals hc (addLocal_costs hc.toStands name) fun herr => ?_
  have hrun : addLocal name c = (if c.draft.locals.length = byteCount then error .tooManyLocals else
      modifyDraft fun d => { d with locals := { name, depth := none } :: d.locals }) c := rfl
  rw [hrun] at herr ⊢
  by_cases hfull : c.draft.locals.length = byteCount
  · rw [if_pos hfull] at herr
    exact absurd herr (errorAt_ne (calm_of_stands hc.toStands) _ _)
  · rw [if_neg hfull]
    exact ⟨_, c.draft.depth, rfl, fun _ => Draft.holds_cons rfl⟩

theorem declareName_emits (hc : c.Ongoing σ) (name : String) :
    Emits (declareName name) c [] [] (σ.initializing name) fun _ _ => True := by
  have hdepth : c.draft.depth = σ.here.depth := congrArg FunctionScope.depth hc.here
  unfold declareName Setting.initializing
  refine .known (r := c) rfl ?_
  by_cases hglobal : σ.here.depth = 0
  · rw [if_neg (by omega), if_pos hglobal]
    exact .pure hc trivial
  · rw [if_pos (by omega), if_neg hglobal]
    exact .bind (errorIf_emits hc _ _) fun _ _ hc₁ _ _ => addLocal_emits hc₁ name

/-- The answer names a global variable. -/
theorem runName_emits (hc : c.Ongoing σ) (name : String) :
    Emits (runName name) c [] [] (σ.initializing name) fun i c' =>
      σ.here.depth = 0 → c'.linkage.Says i name := by
  have hrest : ∀ c₁ : Compiler, c₁.Ongoing (σ.initializing name) → Emits (do
      if 0 < (← get).draft.depth then return 0
      nameConstant name) c₁ [] [] (σ.initializing name) fun i c' =>
        σ.here.depth = 0 → c'.linkage.Says i name := by
    intro c₁ hc₁
    have hdepth : c₁.draft.depth = σ.here.depth := by
      rw [← depth_initializing σ name, ← hc₁.here]
      rfl
    refine .known (r := c₁) rfl ?_
    by_cases hglobal : σ.here.depth = 0
    · rw [if_neg (by omega)]
      exact (nameConstant_emits hc₁ name).mono fun _ _ h _ => h
    · rw [if_pos (by omega)]
      exact .pure hc₁ fun h => absurd h hglobal
  exact .bind (advance_emits hc) fun _ _ hc₁ _ _ => .bind (declareName_emits hc₁ name)
    fun _ c₂ hc₂ _ _ => hrest c₂ hc₂

theorem markInitialized_emits {name : String} (depth : Option Nat)
    (hc : c.Ongoing (if σ.here.depth = 0 then σ else { σ with here := σ.here.push name depth })) :
    Emits markInitialized c [] [] (σ.define name) fun _ _ => True := by
  refine .of_locals hc (markInitialized_costs depth hc.toStands) fun _ => ?_
  by_cases hglobal : c.draft.depth = 0
  · refine ⟨c.draft.locals, c.draft.depth, ?_, fun _ => Iff.rfl⟩
    simp only [markInitialized, modifyDraft, modify, modifyGet, MonadStateOf.modifyGet, StateT.modifyGet,
      if_pos hglobal]
    rfl
  · have hdepth : σ.here.depth ≠ 0 := by
      intro h
      rw [if_pos h] at hc
      exact hglobal ((congrArg FunctionScope.depth hc.here).trans h)
    rw [if_neg hdepth] at hc
    obtain ⟨l, locals, hlocals, -⟩ := List.map_eq_cons_iff.1 (congrArg FunctionScope.locals hc.here)
    have hrun : (markInitialized c).2 = { c with
        draft := { c.draft with locals := { l with depth := some c.draft.depth } :: locals } } := by
      simp only [markInitialized, modifyDraft, modify, modifyGet, MonadStateOf.modifyGet, StateT.modifyGet,
        if_neg hglobal, hlocals]
      rfl
    refine ⟨_, _, hrun, fun slot => ?_⟩
    unfold Draft.Holds
    rw [hlocals, Draft.getElem?_slots_cons, Draft.getElem?_slots_cons]
    split <;> simp

theorem defineVariable_emits {name : String} (depth : Option Nat) {global : UInt8}
    (hc : c.Ongoing (if σ.here.depth = 0 then σ else { σ with here := σ.here.push name depth }))
    (hname : σ.here.depth = 0 → c.linkage.Says global name) :
    Emits (defineVariable global) c (σ.defining name) [] (σ.define name) fun _ _ => True := by
  unfold defineVariable Setting.defining
  refine .known (r := c) rfl ?_
  by_cases hglobal : σ.here.depth = 0
  · have hdefine : σ.define name = σ := if_pos hglobal
    rw [if_pos hglobal] at hc ⊢
    have hdepth : c.draft.depth = 0 := (congrArg FunctionScope.depth hc.here).trans hglobal
    rw [if_neg (by omega), hdefine]
    exact emitWith_emits hc (.named .defineGlobal (hname hglobal))
  · have hdepth : c.draft.depth = σ.here.depth := by
      rw [if_neg hglobal] at hc
      exact congrArg FunctionScope.depth hc.here
    rw [if_pos (by omega), if_neg hglobal]
    exact markInitialized_emits depth hc

/-! ## Variables leave scopes -/

/-- The variables that leave a scope are the last ones. -/
theorem leaving_take (hs : σ.here.Settled) (h : σ.Encloses τ) {ls : List Local}
    (hls : ls.map Local.plain = τ.here.locals) :
    let k := τ.here.locals.length - σ.here.locals.length
    ls.length = σ.here.locals.length + k ∧
      (ls.takeWhile fun l => !l.depth.any (· ≤ σ.here.depth)) = ls.take k ∧
      (ls.dropWhile fun l => !l.depth.any (· ≤ σ.here.depth)) = ls.drop k := by
  obtain ⟨htaken, hdropped⟩ := leaving_locals hs h hls
  set leaves : Local → Bool := fun l => !l.depth.any (· ≤ σ.here.depth) with hleaves
  have hlength : (ls.takeWhile leaves).length + (ls.dropWhile leaves).length = ls.length := by
    rw [← List.length_append, List.takeWhile_append_dropWhile]
  have hkept : (ls.dropWhile leaves).length = σ.here.locals.length := by
    rw [← hdropped, List.length_map]
  refine ⟨by omega, ?_, ?_⟩
  · rw [← htaken]
    exact List.prefix_iff_eq_take.1 (List.takeWhile_prefix leaves)
  · have hdrop := List.suffix_iff_eq_drop.1 (List.dropWhile_suffix (l := ls) leaves)
    rwa [← hlength, Nat.add_sub_cancel, htaken] at hdrop

end Compile

/-- Variables of a scope are forgotten. Functions that have captured them are not concerned. -/
theorem Compiler.Wrote.forget {n k : Nat} (h : c₀.Wrote a ps c) (hn : c₀.draft.locals.length = n)
    (hk : c.draft.locals.length = n + k) :
    c₀.Wrote a (ps.filter fun p => p.1 < c₀.enclosing.length ∨ p.2 < n)
      { c with draft := { c.draft with locals := c.draft.locals.drop k } } := by
  obtain ⟨⟨bytes, hadds, hspells⟩, harity⟩ := h
  have hfilter : (ps.filter fun p => p.1 < c₀.enclosing.length ∨ p.2 < n).filter
      (·.1 < c₀.enclosing.length) = ps.filter (·.1 < c₀.enclosing.length) := by
    rw [List.filter_filter]
    refine List.filter_congr fun p _ => ?_
    simp only [← Bool.decide_and, decide_eq_decide]
    tauto
  refine ⟨⟨bytes, ?_, hspells⟩, harity⟩
  refine ⟨hadds.code, hadds.constants, hadds.name, ?_, fun slot => ?_, ?_, hadds.roots, hadds.keeps⟩
  · rw [hfilter]
    exact hadds.captured
  · rw [Draft.holds_drop hk, hadds.held, List.mem_filter, decide_eq_true_eq]
    have hlt : c₀.draft.Holds slot → slot < n := fun h => hn ▸ Draft.lt_of_holds h
    simp only [Nat.lt_irrefl, false_or]
    tauto
  · exact hadds.enclosing.congr le_rfl hfilter.symm

namespace Compile

/-- What takes the variables of a scope off the stack. Functions in the scope use `ps`. -/
theorem shed_emits (hs : σ.here.Settled) (h : σ.Encloses τ) (hc₀ : c₀.Ongoing σ) (hw : c₀.Wrote a ps c)
    (hc : c.Ongoing (shut σ τ)) :
    Emits ((c.draft.locals.takeWhile fun l => !l.depth.any (· ≤ σ.here.depth)).forM fun l =>
      emit (if l.captured then .closeUpvalue else .pop)) c (σ.leave τ ps) [] (shut σ τ)
        fun _ _ => True := by
  obtain ⟨hlength, htaken, -⟩ := leaving_take hs h (congrArg FunctionScope.locals hc.here)
  obtain ⟨⟨_, hadds, -⟩, -⟩ := hw
  have hlocals : c₀.draft.locals.length = σ.here.locals.length := by
    rw [← hc₀.here]
    exact (List.length_map _).symm
  set k := τ.here.locals.length - σ.here.locals.length with hk
  have hops : (c.draft.locals.take k).map
        (fun l : Local => if l.captured then Opcode.closeUpvalue else .pop) =
      (List.range' σ.here.locals.length k).reverse.map fun slot =>
        if ps.contains (σ.outer.length, slot) then .closeUpvalue else .pop := by
    refine map_take_slots hlength fun slot l hslot hl => ?_
    -- the variable is new, so it has been captured since
    have hheld : l.captured = true ↔ (c₀.enclosing.length, slot) ∈ ps := by
      have hnew : ¬c₀.draft.Holds slot := by
        intro hold
        have := Draft.lt_of_holds hold
        omega
      rw [← (hadds.held slot).trans (or_iff_right hnew)]
      exact ⟨fun hcaptured => ⟨l, hl, hcaptured⟩, fun ⟨l', hl', hcaptured⟩ =>
        Option.some.inj (hl'.symm.trans hl) ▸ hcaptured⟩
    rw [Compiler.length_outer hc₀.toStands, List.contains_eq_mem]
    simp only [hheld, decide_eq_true_eq]
  have hforM : (c.draft.locals.take k).forM (fun l => emit (if l.captured then .closeUpvalue else .pop)) =
      ((c.draft.locals.take k).map fun l : Local =>
        if l.captured then Opcode.closeUpvalue else .pop).forM emit := by
    rw [List.forM_eq_forM, List.forM_eq_forM, List.forM_map]
  rw [htaken, hforM, hops]
  refine .congr (ops_emits hc _) ?_ rfl
  rw [Setting.leave, List.map_map]
  rfl

/-- **The end of a scope** takes its variables off the stack. -/
theorem endScope_ends (hs : σ.here.Settled) (h : σ.Encloses τ) (hc₀ : c₀.Ongoing σ) (hw : c₀.Wrote a ps c)
    (hc : c.Ongoing τ) :
    Ends endScope c fun _ c' => c'.Ongoing σ ∧ c₀.Wrote (a ++ σ.leave τ ps) (σ.remaining ps) c' ∧ True := by
  have hrest : ∀ c₁ : Compiler, c₁.Ongoing (shut σ τ) → c₀.Wrote a ps c₁ → Ends (do
      let d := (← get).draft
      let leaves (l : Local) : Bool := !l.depth.any (· ≤ d.depth)
      (d.locals.takeWhile leaves).forM fun l => emit (if l.captured then .closeUpvalue else .pop)
      modifyDraft fun d => { d with locals := d.locals.dropWhile leaves }) c₁ fun _ c' =>
        c'.Ongoing σ ∧ c₀.Wrote (a ++ σ.leave τ ps) (σ.remaining ps) c' ∧ True := by
    intro c₁ hc₁ hw₁
    have hdepth : c₁.draft.depth = σ.here.depth := congrArg FunctionScope.depth hc₁.here
    refine Ends.known (r := c₁) rfl ?_
    dsimp only
    rw [hdepth]
    refine Ends.next (shed_emits hs h hc₀ hw₁ hc₁) fun _ c₂ h₂ herr => ?_
    obtain ⟨hc₂, hw₂, -⟩ := h₂
    obtain ⟨hlength, -, hdropped⟩ := leaving_take hs h (congrArg FunctionScope.locals hc₂.here)
    have hlocals : c₀.draft.locals.length = σ.here.locals.length := by
      rw [← hc₀.here]
      exact (List.length_map _).symm
    refine ⟨⟨((dropLocals_costs hs h hc₂.toStands).ends herr).1, hc₂.tidy⟩, ?_, trivial⟩
    have hall := (hw₁.trans hw₂).forget hlocals hlength
    rw [List.append_nil] at hall
    change c₀.Wrote _ _ { c₂ with draft := { c₂.draft with locals := c₂.draft.locals.dropWhile _ } }
    rw [hdropped, Setting.remaining, Compiler.length_outer hc₀.toStands]
    exact hall
  have hshut : Emits (modifyDraft fun d => { d with depth := d.depth - 1 }) c [] [] (shut σ τ)
      fun _ _ => True :=
    .of_locals hc (shut_costs h hc.toStands) fun _ =>
      ⟨c.draft.locals, c.draft.depth - 1, rfl, fun _ => Iff.rfl⟩
  refine Ends.next hshut fun _ c₁ h₁ => ?_
  obtain ⟨hc₁, hw₁, -⟩ := h₁
  refine hrest c₁ hc₁ ?_
  have hall := hw.trans hw₁
  rwa [List.append_nil, List.append_nil] at hall

/-- What is in a scope, and the end of the scope. -/
theorem Emits.scoped (hs : σ.here.Settled) (h : σ.Encloses τ) (hc : c.Ongoing σ)
    (hx : Emits x c a ps τ Q) :
    Emits (do let _ ← x; endScope) c (a ++ σ.leave τ ps) (σ.remaining ps) σ fun _ _ => True :=
  Ends.next hx fun _ _ h₁ => endScope_ends hs h hc h₁.2.1 h₁.1

end Compile

end LoxMachine
