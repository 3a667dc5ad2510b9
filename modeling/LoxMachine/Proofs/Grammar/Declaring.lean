import LoxMachine.Proofs.Grammar.Costs

/-!
# What declarations cost

* `FunctionScope.Settled`: outside initializers, all variables belong to open scopes, those of inner
  scopes first. So a name is declared in the innermost scope if and only if it is found among its first
  variables.
* `Setting.Encloses`: one point is in a scope that another point opens.
* `declareName_costs`, `defineVariable_costs` and `endScope_costs`: variables enter and leave scopes.
-/

namespace LoxMachine

open Compile

set_option synthInstance.maxSize 4096

/-! ## Settled scopes -/

/-- No variable is in its initializer, and variables of inner scopes come first. -/
structure FunctionScope.Settled (s : FunctionScope) : Prop where
  depths : ∀ v ∈ s.locals, ∃ k ≤ s.depth, v.depth = some k
  sorted : s.locals.Pairwise fun v w => ∀ k, w.depth = some k → ∃ j, k ≤ j ∧ v.depth = some j

/-- One point is in a scope that is opened at another. -/
structure Setting.Encloses (σ τ : Setting) : Prop where
  kind : τ.here.kind = σ.here.kind
  depth : τ.here.depth = σ.here.depth + 1
  locals : ∃ added, τ.here.locals = added ++ σ.here.locals ∧ ∀ v ∈ added, v.depth = some τ.here.depth
  outer : τ.outer = σ.outer
  classes : τ.classes = σ.classes

namespace Setting

variable {σ τ : Setting}

theorem settled_start : start.here.Settled := by
  refine ⟨fun v hv => ?_, List.pairwise_singleton _ _⟩
  obtain rfl := List.mem_singleton.1 hv
  exact ⟨0, Nat.zero_le _, rfl⟩

theorem settled_begin (σ : Setting) (kind : FunctionKind) : (σ.begin kind).here.Settled := by
  refine ⟨fun v hv => ?_, List.pairwise_singleton _ _⟩
  obtain rfl := List.mem_singleton.1 hv
  exact ⟨0, Nat.zero_le _, rfl⟩

theorem settled_enter (h : σ.here.Settled) : σ.enter.here.Settled :=
  ⟨fun v hv => (h.depths v hv).imp fun _ hk => ⟨Nat.le_succ_of_le hk.1, hk.2⟩, h.sorted⟩

theorem settled_define (h : σ.here.Settled) (name : String) : (σ.define name).here.Settled := by
  unfold define
  split
  · exact h
  · refine ⟨fun v hv => ?_, List.pairwise_cons.2 ⟨fun w hw k hk => ?_, h.sorted⟩⟩
    · rcases List.mem_cons.1 hv with rfl | hv
      · exact ⟨_, Nat.le_refl _, rfl⟩
      · exact h.depths v hv
    · obtain ⟨j, hj, hw'⟩ := h.depths w hw
      rw [hk] at hw'
      exact ⟨σ.here.depth, Option.some.inj hw' ▸ hj, rfl⟩

@[simp] theorem outer_define (σ : Setting) (name : String) : (σ.define name).outer = σ.outer := by
  unfold define
  split <;> rfl

@[simp] theorem classes_define (σ : Setting) (name : String) : (σ.define name).classes = σ.classes := by
  unfold define
  split <;> rfl

@[simp] theorem depth_define (σ : Setting) (name : String) : (σ.define name).here.depth = σ.here.depth := by
  unfold define
  split <;> rfl

@[simp] theorem kind_define (σ : Setting) (name : String) : (σ.define name).here.kind = σ.here.kind := by
  unfold define
  split <;> rfl

theorem encloses_enter (σ : Setting) : σ.Encloses σ.enter := ⟨rfl, rfl, ⟨[], rfl, nofun⟩, rfl, rfl⟩

theorem Encloses.define (h : σ.Encloses τ) (name : String) : σ.Encloses (τ.define name) := by
  obtain ⟨added, hlocals, hadded⟩ := h.locals
  refine ⟨?_, ?_, ⟨{ name, depth := some τ.here.depth } :: added, ?_, ?_⟩, ?_, ?_⟩
  · rw [kind_define, h.kind]
  · rw [depth_define, h.depth]
  · have hdepth := h.depth
    unfold Setting.define
    rw [if_neg (by omega)]
    exact congrArg (_ :: ·) hlocals
  · rw [depth_define]
    exact List.forall_mem_cons.2 ⟨rfl, hadded⟩
  · rw [outer_define, h.outer]
  · rw [classes_define, h.classes]

end Setting

/-- A name is declared in the innermost scope if it is found before the variables of other scopes. -/
theorem declaresHere_iff {d : Draft} (h : d.scope.Settled) (name : String) :
    d.declaresHere name = true ↔ d.scope.Declares name := by
  have hlist : ∀ ls : List Local, (∀ v ∈ ls, ∃ k ≤ d.depth, v.depth = some k) →
      (ls.Pairwise fun v w => ∀ k, w.depth = some k → ∃ j, k ≤ j ∧ v.depth = some j) →
      ((ls.takeWhile fun l => l.depth.all (d.depth ≤ ·)).any (·.name == name) = true ↔
        ∃ v ∈ ls, v.name = name ∧ v.depth = some d.depth) := by
    intro ls hdepths hsorted
    induction ls with
    | nil => simp
    | cons v ls ih =>
      obtain ⟨⟨k, hk, hv⟩, hdepths⟩ := List.forall_mem_cons.1 hdepths
      obtain ⟨hfirst, hsorted⟩ := List.pairwise_cons.1 hsorted
      have ih := ih hdepths hsorted
      by_cases hinner : d.depth ≤ k
      · obtain rfl : k = d.depth := Nat.le_antisymm hk hinner
        rw [List.takeWhile_cons_of_pos (by simp [hv]), List.any_cons, Bool.or_eq_true, ih]
        simp [hv]
      · rw [List.takeWhile_cons_of_neg (by simp [hv]; omega)]
        refine iff_of_false (by simp) ?_
        rintro ⟨w, hw, -, hdepth⟩
        rcases List.mem_cons.1 hw with rfl | hw
        · exact hinner (Option.some.inj (hdepth.symm.trans hv)).le
        · obtain ⟨j, hj, hv'⟩ := hfirst w hw _ hdepth
          rw [hv] at hv'
          exact hinner (Option.some.inj hv' ▸ hj)
  have hplain : d.declaresHere name = ((d.locals.map Local.plain).takeWhile fun l =>
      l.depth.all (d.depth ≤ ·)).any (·.name == name) := by
    rw [List.takeWhile_map, List.any_map]
    rfl
  rw [hplain]
  exact hlist _ h.depths h.sorted

namespace Compile

variable {c : Compiler} {σ τ : Setting}

/-! ## Variables enter scopes -/

theorem addLocal_costs (hc : c.Stands σ) (name : String) :
    Costs (addLocal name) c (σ.here.locals.length < byteCount) 0
      { σ with here := σ.here.push name none } fun _ _ => True := by
  have hlength : σ.here.locals.length = c.draft.locals.length := by
    rw [← hc.here]
    exact List.length_map _
  have hbound := (hc.bounded _ List.mem_cons_self).locals
  unfold addLocal
  refine .known (a := c) rfl ?_
  by_cases hfull : c.draft.locals.length = byteCount
  · rw [if_pos hfull]
    exact (error_costs hc _).congr (iff_of_false (by omega) id) rfl
  · rw [if_neg hfull]
    refine .congr (.of_draft (n := 0) hc rfl ?_ rfl rfl rfl rfl rfl rfl ?_ trivial) ?_ rfl
    · rw [← hc.here]
      rfl
    · exact Nat.lt_of_le_of_ne hbound hfull
    · rw [hlength]
      exact iff_of_true (Nat.lt_of_le_of_ne hbound hfull) trivial

theorem beginScope_costs (hc : c.Stands σ) : Costs beginScope c True 0 σ.enter fun _ _ => True := by
  refine .of_draft (n := 0) hc rfl ?_ rfl rfl rfl rfl rfl rfl (hc.bounded _ List.mem_cons_self).locals trivial
  change (_ : FunctionScope) = { σ.here with depth := σ.here.depth + 1 }
  rw [← hc.here]
  rfl

theorem declareName_costs (hs : σ.here.Settled) (hc : c.Stands σ) (name : String) :
    Costs (declareName name) c (σ.Declarable name) 0 (σ.initializing name) fun _ _ => True := by
  have hdepth : c.draft.depth = σ.here.depth := by rw [← hc.here]; rfl
  unfold declareName Setting.Declarable Setting.initializing
  refine .known (a := c) rfl ?_
  by_cases hglobal : σ.here.depth = 0
  · rw [if_neg (by omega), if_pos hglobal]
    exact .congr (.pure hc trivial) (by simp [hglobal]) rfl
  · rw [if_pos (by omega), if_neg hglobal]
    rw [← hc.here] at hs
    refine .congr (.bind (errorIf_costs hc _ _) fun _ _ hc₁ _ _ => addLocal_costs hc₁ name) ?_ rfl
    rw [declaresHere_iff hs, hc.here]
    simp [Nat.pos_of_ne_zero hglobal]

@[simp] theorem depth_initializing (σ : Setting) (name : String) :
    (σ.initializing name).here.depth = σ.here.depth := by
  unfold Setting.initializing
  split <;> rfl

theorem runName_costs (hs : σ.here.Settled) (hc : c.Stands σ) (name : String) :
    Costs (runName name) c (σ.Declarable name) { constants := if σ.here.depth = 0 then 1 else 0 }
      (σ.initializing name) fun _ _ => True := by
  have hrest : ∀ c₁ : Compiler, c₁.Stands (σ.initializing name) →
      Costs (do
        if 0 < (← get).draft.depth then return 0
        nameConstant name) c₁ True { constants := if σ.here.depth = 0 then 1 else 0 }
          (σ.initializing name) fun _ _ => True := by
    intro c₁ hc₁
    have hdepth : c₁.draft.depth = σ.here.depth := by
      rw [← depth_initializing σ name, ← hc₁.here]
      rfl
    refine .known (a := c₁) rfl ?_
    by_cases hglobal : σ.here.depth = 0
    · rw [if_neg (by omega), if_pos hglobal]
      exact nameConstant_costs hc₁ name
    · rw [if_pos (by omega), if_neg hglobal]
      exact .pure hc₁ trivial
  exact .congr (.bind (advance_costs hc) fun _ _ hc₁ _ _ => .bind (declareName_costs hs hc₁ name)
    fun _ c₂ hc₂ _ _ => hrest c₂ hc₂) (by simp) (by ext <;> simp)

/-- The variable declared last can be used from here on. -/
theorem markInitialized_costs {name : String} (depth : Option Nat)
    (hc : c.Stands (if σ.here.depth = 0 then σ else { σ with here := σ.here.push name depth })) :
    Costs markInitialized c True 0 (σ.define name) fun _ _ => True := by
  have hbound := (hc.bounded _ List.mem_cons_self).locals
  by_cases hglobal : σ.here.depth = 0
  · rw [if_pos hglobal] at hc
    have hdepth : c.draft.depth = 0 := by rw [← hglobal, ← hc.here]; rfl
    unfold Setting.define
    rw [if_pos hglobal]
    have hrun : markInitialized c = ((), c) := by
      change ((), { c with draft := if c.draft.depth = 0 then c.draft else _ }) = _
      rw [if_pos hdepth]
    exact .free hc hrun trivial
  · rw [if_neg hglobal] at hc
    have hdepth : c.draft.depth = σ.here.depth := congrArg FunctionScope.depth hc.here
    have hlocals : c.draft.locals.map Local.plain = { name, depth } :: σ.here.locals :=
      congrArg FunctionScope.locals hc.here
    have hkind : c.draft.kind = σ.here.kind := congrArg FunctionScope.kind hc.here
    obtain ⟨l, locals, heq, hl, hmore⟩ := List.map_eq_cons_iff.1 hlocals
    unfold Setting.define
    rw [if_neg hglobal]
    have hrun : markInitialized c = ((), { c with draft := { c.draft with
        locals := { l with depth := some c.draft.depth } :: locals } }) := by
      change ((), { c with draft := if c.draft.depth = 0 then c.draft else _ }) = _
      rw [if_neg (by omega), heq]
    refine .of_draft (n := 0) hc hrun ?_ rfl rfl rfl rfl rfl rfl ?_ trivial
    · have hname : l.name = name := congrArg Local.name hl
      simp only [Draft.scope, List.map_cons, Local.plain, FunctionScope.push, hkind, hdepth, hname,
        FunctionScope.mk.injEq, true_and, and_true]
      exact congrArg _ hmore
    · rw [heq] at hbound
      exact hbound

theorem defineVariable_costs {name : String} (depth : Option Nat) (global : UInt8)
    (hc : c.Stands (if σ.here.depth = 0 then σ else { σ with here := σ.here.push name depth })) :
    Costs (defineVariable global) c True (.bytes (if σ.here.depth = 0 then 2 else 0)) (σ.define name)
      fun _ _ => True := by
  unfold defineVariable
  refine .known (a := c) rfl ?_
  by_cases hglobal : σ.here.depth = 0
  · have hdepth : c.draft.depth = 0 := by
      rw [if_pos hglobal] at hc
      rw [← hglobal, ← hc.here]
      rfl
    have hdefine : σ.define name = σ := if_pos hglobal
    rw [if_pos hglobal] at hc
    rw [if_neg (by omega), if_pos hglobal, hdefine]
    exact emitWith_costs hc _ _
  · have hdepth : c.draft.depth = σ.here.depth := by
      rw [if_neg hglobal] at hc
      exact congrArg FunctionScope.depth hc.here
    rw [if_pos (by omega), if_neg hglobal]
    exact markInitialized_costs depth hc

/-! ## Variables leave scopes -/

/-- Which variables leave a scope. -/
theorem leaving_locals (hs : σ.here.Settled) (h : σ.Encloses τ) {ls : List Local}
    (hls : ls.map Local.plain = τ.here.locals) :
    (ls.takeWhile fun l => !l.depth.any (· ≤ σ.here.depth)).length =
        τ.here.locals.length - σ.here.locals.length ∧
      (ls.dropWhile fun l => !l.depth.any (· ≤ σ.here.depth)).map Local.plain = σ.here.locals := by
  obtain ⟨added, hlocals, hadded⟩ := h.locals
  set leaves : Local → Bool := fun l => !l.depth.any (· ≤ σ.here.depth) with hleavesDef
  have hplain : leaves ∘ Local.plain = leaves := rfl
  have hleaves : ∀ v ∈ added, leaves v = true := by
    intro v hv
    simp [hleavesDef, hadded v hv, h.depth]
  have hstays : σ.here.locals.takeWhile leaves = [] := by
    cases hempty : σ.here.locals with
    | nil => rfl
    | cons v locals =>
      obtain ⟨k, hk, hv⟩ := hs.depths v (by rw [hempty]; exact List.mem_cons_self)
      exact List.takeWhile_cons_of_neg (by simp [hleavesDef, hv, hk])
  rw [hlocals] at hls ⊢
  constructor
  · rw [← List.length_map Local.plain, ← hplain, ← List.takeWhile_map, hls,
      List.takeWhile_append_of_pos hleaves, hstays, List.append_nil, List.length_append, Nat.add_sub_cancel]
  · have hsplit := List.takeWhile_append_dropWhile (p := leaves) (l := σ.here.locals)
    rw [hstays, List.nil_append] at hsplit
    rw [← hplain, ← List.dropWhile_map, hls, List.dropWhile_append_of_pos hleaves, hsplit]

/-- A scope has been left, and its variables are still there. -/
def shut (σ τ : Setting) : Setting := { τ with here := { τ.here with depth := σ.here.depth } }

theorem shut_costs (h : σ.Encloses τ) (hc : c.Stands τ) :
    Costs (modifyDraft fun d => { d with depth := d.depth - 1 }) c True 0 (shut σ τ) fun _ _ => True := by
  refine .of_draft (n := 0) hc rfl ?_ rfl rfl rfl rfl rfl rfl (hc.bounded _ List.mem_cons_self).locals trivial
  have hdepth : c.draft.depth - 1 = σ.here.depth := by
    rw [show c.draft.depth = τ.here.depth from congrArg FunctionScope.depth hc.here, h.depth,
      Nat.add_sub_cancel]
  rw [shut, ← hc.here]
  simp only [Draft.scope, hdepth]

/-- The variables of a scope that has been left are forgotten. -/
theorem dropLocals_costs (hs : σ.here.Settled) (h : σ.Encloses τ) (hc : c.Stands (shut σ τ)) :
    Costs (modifyDraft fun d =>
      { d with locals := d.locals.dropWhile fun l => !l.depth.any (· ≤ σ.here.depth) }) c True 0 σ
        fun _ _ => True := by
  obtain ⟨-, hdropped⟩ := leaving_locals hs h (congrArg FunctionScope.locals hc.here)
  refine .of_draft (n := 0) hc rfl ?_ h.outer.symm h.classes.symm rfl rfl rfl rfl ?_ trivial
  · have hkind : c.draft.kind = τ.here.kind := congrArg FunctionScope.kind hc.here
    have hdepth : c.draft.depth = σ.here.depth := congrArg FunctionScope.depth hc.here
    simp only [Draft.scope, hdropped, hkind, hdepth, h.kind]
  · exact (List.dropWhile_sublist _).length_le.trans (hc.bounded _ List.mem_cons_self).locals

/-- **The end of a scope.** -/
theorem endScope_costs (hs : σ.here.Settled) (h : σ.Encloses τ) (hc : c.Stands τ) :
    Costs endScope c True (σ.leaving τ) σ fun _ _ => True := by
  have hrest : ∀ c₁ : Compiler, c₁.Stands (shut σ τ) → Costs (do
      let d := (← get).draft
      let leaves (l : Local) : Bool := !l.depth.any (· ≤ d.depth)
      (d.locals.takeWhile leaves).forM fun l => emit (if l.captured then .closeUpvalue else .pop)
      modifyDraft fun d => { d with locals := d.locals.dropWhile leaves }) c₁ True (σ.leaving τ) σ
        fun _ _ => True := by
    intro c₁ hc₁
    refine .known (a := c₁) rfl ?_
    dsimp only
    rw [show c₁.draft.depth = σ.here.depth from congrArg FunctionScope.depth hc₁.here]
    obtain ⟨htaken, -⟩ := leaving_locals hs h (congrArg FunctionScope.locals hc₁.here)
    refine .congr (.bind (emitAll_costs hc₁ _ _) fun _ c₂ hc₂ _ _ => dropLocals_costs hs h hc₂) (by simp) ?_
    ext <;> simp [Setting.leaving, ← htaken]
  exact .congr (.bind (shut_costs h hc) fun _ c₁ hc₁ _ _ => hrest c₁ hc₁) (by simp) (by ext <;> simp)

end Compile

end LoxMachine
