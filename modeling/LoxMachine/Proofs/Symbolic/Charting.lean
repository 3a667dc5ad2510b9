import LoxMachine.Proofs.Symbolic.Charts

/-!
# The charts of trees

* An expression leaves one value on the stack: `Expression.leads`.
* A statement leaves the stack as it was, and after a declaration the local variables are the slots of the
  stack: `Statement.leads` and `Declaration.leads`.
* `charted_script`: the code of a program is charted, and the class declarations in it are those of the program.
-/

namespace LoxMachine

open Symbolic

variable {K : ClassDeclaration → Prop} {kind : FunctionKind} {h : Nat} {σ : Setting} {r : Receivers}

/-! ## Instructions -/

namespace Symbolic.Leads

variable {i : Instruction} {h' : Nat}

/-- A plain instruction, whatever it does to the height. -/
theorem of_after (hi : i.IsPlain) (hclosure : ∀ k n a c b, i ≠ .closure k n a c b)
    (henough : i.opcode.needs i.count < h) (hafter : i.after h = h') : Leads K kind h [i] h' :=
  hafter ▸ plain hi hclosure henough

theorem get (v : Variable) (hpos : 0 < h) : Leads K kind h [.get v] (h + 1) :=
  of_after trivial nofun (by cases v <;> exact hpos) (by cases v <;> rfl)

theorem set (v : Variable) (hpos : 0 < h) : Leads K kind (h + 1) [.set v] (h + 1) :=
  of_after trivial nofun (by cases v <;> exact Nat.succ_lt_succ hpos) (by cases v <;> rfl)

theorem op (o : Opcode) (ho : o.operands = .none ∧ o ≠ .ret ∧ o ≠ .inherit) (henough : o.needs 0 < h)
    (hafter : h - o.pops 0 + o.pushes = h') : Leads K kind h [.op o] h' := of_after ho nofun henough hafter

theorem named (o : Opcode) (name : String) (ho : o.operands = .constant ∧ o ≠ .cls ∧ o ≠ .method)
    (henough : o.needs 0 < h) (hafter : h - o.pops 0 + o.pushes = h') : Leads K kind h [.named o name] h' :=
  of_after ho nofun henough hafter

end Symbolic.Leads

/-! ## Expressions -/

theorem BinaryOperator.leads (operator : BinaryOperator) (hpos : 0 < h) :
    Leads K kind (h + 2) (operator.opcodes.map .op) (h + 1) := by
  have htwo : 2 < h + 2 := Nat.add_lt_add_right hpos 2
  cases operator
  case notEqual | greaterEqual | lessEqual =>
    exact .cons (.op _ ⟨rfl, nofun, nofun⟩ htwo rfl) (.op .not ⟨rfl, nofun, nofun⟩ (Nat.succ_lt_succ hpos) rfl)
  all_goals exact .op _ ⟨rfl, nofun, nofun⟩ htwo rfl

namespace Expression

theorem proper_of_list {arguments : List Expression} (hproper : ∀ t ∈ listSymbols arguments, t.Proper) :
    ∀ e ∈ arguments, ∀ t ∈ e.symbols, t.Proper := by
  have hmore : ∀ {more : List Expression}, (∀ t ∈ moreSymbols more, t.Proper) →
      ∀ e ∈ more, ∀ t ∈ e.symbols, t.Proper := by
    intro more
    induction more with
    | nil => simp
    | cons e more ih =>
      intro hproper
      simp only [moreSymbols, List.forall_mem_cons, List.forall_mem_append] at hproper
      exact List.forall_mem_cons.2 ⟨hproper.2.1, ih hproper.2.2⟩
  cases arguments with
  | nil => simp
  | cons e more =>
    simp only [listSymbols, List.forall_mem_append] at hproper
    exact List.forall_mem_cons.2 ⟨hproper.1, hmore hproper.2⟩

mutual

/-- **An expression leaves one value on the stack.** -/
theorem leads : ∀ (e : Expression) {h : Nat}, 0 < h → (∀ t ∈ e.symbols, t.Proper) →
    Leads K kind h (e.code σ r) (h + 1)
  | nil, _, hpos, _ => .op .pushNil ⟨rfl, nofun, nofun⟩ hpos rfl
  | bool value, _, hpos, _ => by
    cases value <;> exact .op _ ⟨rfl, nofun, nofun⟩ hpos rfl
  | number literal, _, hpos, hproper => by
    obtain ⟨n, hn⟩ := Option.isSome_iff_exists.1
      ((hproper ⟨.number, literal⟩ (by simp [symbols])).number rfl)
    dsimp only at hn
    rw [code, hn]
    exact .of_after trivial nofun hpos rfl
  | string literal, _, hpos, _ => .of_after trivial nofun hpos rfl
  | read name, _, hpos, _ => .get _ hpos
  | this, _, hpos, _ => .get _ hpos
  | grouping e, _, hpos, hproper => by
    simp only [symbols, List.forall_mem_cons, List.forall_mem_append] at hproper
    exact e.leads hpos hproper.2.1
  | superProperty name, _, hpos, _ =>
    .cons (.get _ hpos) (.cons (.get _ (Nat.lt_succ_of_lt hpos))
      (.named .getSuper name ⟨rfl, nofun, nofun⟩ (Nat.add_lt_add_right hpos 2) rfl))
  | superInvoke name arguments, h, hpos, hproper => by
    simp only [symbols, List.forall_mem_cons, List.forall_mem_append] at hproper
    refine .cons (.get _ hpos) (.append (list_leads arguments (Nat.succ_pos h)
      (proper_of_list hproper.2.2.2.2.1)) (.cons (.get _ (by omega)) (.of_after rfl nofun ?_ ?_)))
    · change arguments.length + 2 < h + 1 + arguments.length + 1
      omega
    · change h + 1 + arguments.length + 1 - (arguments.length + 2) + 1 = h + 1
      omega
  | call callee arguments, h, hpos, hproper => by
    simp only [symbols, List.forall_mem_cons, List.forall_mem_append] at hproper
    refine .append (callee.leads hpos hproper.1) (.append
      (list_leads arguments (Nat.succ_pos h) (proper_of_list hproper.2.2.1)) (.of_after trivial nofun ?_ ?_))
    · change arguments.length + 1 < h + 1 + arguments.length
      omega
    · change h + 1 + arguments.length - (arguments.length + 1) + 1 = h + 1
      omega
  | property target name, _, hpos, hproper => by
    simp only [symbols, List.forall_mem_cons, List.forall_mem_append] at hproper
    exact .append (target.leads hpos hproper.1)
      (.named .getProperty name ⟨rfl, nofun, nofun⟩ (Nat.succ_lt_succ hpos) rfl)
  | invoke target name arguments, h, hpos, hproper => by
    simp only [symbols, List.forall_mem_cons, List.forall_mem_append] at hproper
    refine .append (target.leads hpos hproper.1) (.append
      (list_leads arguments (Nat.succ_pos h) (proper_of_list hproper.2.2.2.2.1)) (.of_after rfl nofun ?_ ?_))
    · change arguments.length + 1 < h + 1 + arguments.length
      omega
    · change h + 1 + arguments.length - (arguments.length + 1) + 1 = h + 1
      omega
  | unary operator e, _, hpos, hproper => by
    simp only [symbols, List.forall_mem_cons] at hproper
    refine .append (e.leads hpos hproper.2) ?_
    cases operator <;> exact .op _ ⟨rfl, nofun, nofun⟩ (Nat.succ_lt_succ hpos) rfl
  | binary operator left right, h, hpos, hproper => by
    simp only [symbols, List.forall_mem_cons, List.forall_mem_append] at hproper
    exact .append (left.leads hpos hproper.1)
      (.append (right.leads (Nat.succ_pos h) hproper.2.2) (operator.leads hpos))
  | and left right, _, hpos, hproper => by
    simp only [symbols, List.forall_mem_cons, List.forall_mem_append] at hproper
    exact .append (left.leads hpos hproper.1)
      (.across_jumpIfFalse (.cons (.pop hpos) (right.leads hpos hproper.2.2)))
  | or left right, _, hpos, hproper => by
    simp only [symbols, List.forall_mem_cons, List.forall_mem_append] at hproper
    exact .append (left.leads hpos hproper.1) (.branch .nil (.cons (.pop hpos) (right.leads hpos hproper.2.2)))
  | assign name value, _, hpos, hproper => by
    simp only [symbols, List.forall_mem_cons] at hproper
    exact .append (value.leads hpos hproper.2.2) (.set _ hpos)
  | setProperty target name value, h, hpos, hproper => by
    simp only [symbols, List.forall_mem_cons, List.forall_mem_append] at hproper
    exact .append (target.leads hpos hproper.1) (.append (value.leads (Nat.succ_pos h) hproper.2.2.2.2)
      (.named .setProperty name ⟨rfl, nofun, nofun⟩ (Nat.add_lt_add_right hpos 2) rfl))

theorem list_leads : ∀ (arguments : List Expression) {h : Nat}, 0 < h →
    (∀ e ∈ arguments, ∀ t ∈ e.symbols, t.Proper) →
      Leads K kind h (listCode arguments σ r) (h + arguments.length)
  | [], _, _, _ => .nil
  | e :: more, h, hpos, hproper => by
    obtain ⟨he, hmore⟩ := List.forall_mem_cons.1 hproper
    have hlength : h + (e :: more).length = h + 1 + more.length := by
      rw [List.length_cons]
      omega
    rw [hlength]
    exact .append (e.leads hpos he) (list_leads more (Nat.succ_pos h) hmore)

end

end Expression

/-! ## Settings -/

namespace Setting

/-- Outside all scopes, no name is that of a local variable. -/
def Outermost (σ : Setting) : Prop :=
  σ.here.depth = 0 → ∀ name, name ≠ "" → lookup name σ.functions = none

theorem outermost_of_depth (hdepth : σ.here.depth ≠ 0) : σ.Outermost := fun hzero => absurd hzero hdepth

theorem outermost_start : start.Outermost := fun _ name hname => by
  simp [functions, start, lookup, Draft.findLocal, hname.symm]

theorem Outermost.define (hσ : σ.Outermost) (name : String) : (σ.define name).Outermost := by
  by_cases hdepth : σ.here.depth = 0
  · rwa [Setting.define, if_pos hdepth]
  · rw [define_local name hdepth]
    exact outermost_of_depth hdepth

theorem length_define (σ : Setting) (name : String) : (σ.define name).here.locals.length =
    if σ.here.depth = 0 then σ.here.locals.length else σ.here.locals.length + 1 := by
  unfold Setting.define
  split <;> rfl

/-- The slots of a scope are taken off the stack. -/
theorem leave_leads {inner : Setting} (hpos : 0 < σ.here.locals.length)
    (hle : σ.here.locals.length ≤ inner.here.locals.length)
    (uses : List (Nat × Nat)) :
    Leads K kind inner.here.locals.length (σ.leave inner uses) σ.here.locals.length := by
  have hslots : ∀ slots : List Nat, Leads K kind (σ.here.locals.length + slots.length)
      (slots.map fun slot => .op (if uses.contains (σ.outer.length, slot) then .closeUpvalue else .pop))
      σ.here.locals.length := by
    intro slots
    induction slots with
    | nil => exact .nil
    | cons slot slots ih =>
      have hone : 1 < σ.here.locals.length + (slots.length + 1) := by omega
      refine .cons (.op _ ?_ ?_ ?_) ih
      · split <;> exact ⟨rfl, nofun, nofun⟩
      · split <;> exact hone
      · split <;> rfl
  have hall := hslots (List.range' σ.here.locals.length
    (inner.here.locals.length - σ.here.locals.length)).reverse
  rwa [List.length_reverse, List.length_range', Nat.add_sub_cancel' hle] at hall

theorem length_parameters (hdepth : σ.here.depth ≠ 0) (parameters : List String) :
    (parameters.foldl define σ).here.locals.length = σ.here.locals.length + parameters.length := by
  induction parameters generalizing σ with
  | nil => rfl
  | cons p parameters ih =>
    have hdefine : (σ.define p).here.depth = σ.here.depth := by rw [define_local p hdepth]; rfl
    rw [List.foldl_cons, ih (hdefine ▸ hdepth), length_define, if_neg hdepth, List.length_cons]
    omega

theorem depth_parameters (parameters : List String) :
    (parameters.foldl define σ).here.depth = σ.here.depth := by
  induction parameters generalizing σ with
  | nil => rfl
  | cons p parameters ih =>
    rw [List.foldl_cons, ih]
    unfold Setting.define
    split <;> rfl

end Setting

theorem Setting.kind_parameters (parameters : List String) :
    (parameters.foldl Setting.define σ).here.kind = σ.here.kind := by
  induction parameters generalizing σ with
  | nil => rfl
  | cons p parameters ih => rw [List.foldl_cons, ih, Setting.kind_define]

theorem Declaration.kind_after (d : Declaration) (σ : Setting) : (d.after σ).here.kind = σ.here.kind := by
  cases d with
  | statement s => rfl
  | var name | function f | cls name => exact Setting.kind_define σ _

theorem Declaration.outermost_after (d : Declaration) (hσ : σ.Outermost) : (d.after σ).Outermost := by
  cases d with
  | statement s => exact hσ
  | var name | function f | cls name => exact hσ.define _

theorem Declaration.length_le_after (d : Declaration) (σ : Setting) :
    σ.here.locals.length ≤ (d.after σ).here.locals.length := by
  have hdefine (name : String) : σ.here.locals.length ≤ (σ.define name).here.locals.length := by
    rw [Setting.length_define]
    split <;> omega
  cases d with
  | statement s => exact le_rfl
  | var name | function f | cls name => exact hdefine _

theorem Declaration.length_le_afterList (body : List Declaration) (σ : Setting) :
    σ.here.locals.length ≤ (Declaration.afterList body σ).here.locals.length := by
  induction body generalizing σ with
  | nil => exact le_rfl
  | cons d body ih => exact (d.length_le_after σ).trans (ih _)

/-- The variable of a class is where the class is put. -/
theorem ClassDeclaration.fits (d : ClassDeclaration) (hpos : 0 < σ.here.locals.length) (hσ : σ.Outermost)
    (hname : (Symbol.name d.name).Proper) (hsuper : SuperclassLegal d.name d.superclass σ) :
    d.Fits σ σ.here.locals.length where
  height := rfl
  above := hpos
  apart s hs := (hsuper s hs).1
  target := by
    have htext : d.name ≠ "" := hname.text rfl
    have hdefined : (σ.define d.name).variable d.name =
        if σ.here.depth = 0 then .global d.name else .own σ.here.locals.length d.name := by
      by_cases hdepth : σ.here.depth = 0
      · rw [Setting.define, if_pos hdepth, if_pos hdepth, Setting.variable, hσ hdepth _ htext]
      · rw [Setting.define_local _ hdepth, if_neg hdepth]
        simp [Setting.variable, Setting.functions, lookup, Draft.findLocal, FunctionScope.push]
    rw [← hdefined]
    unfold inner methodsSetting
    cases d.superclass with
    | none => rfl
    | some s =>
      dsimp only
      rw [Setting.define_local _ (Nat.succ_ne_zero _)]
      exact Setting.variable_push (hname.name rfl).2.symm _

/-! ## Statements and declarations -/

section Parts

variable {name : String} {value : Option Expression}

theorem value_leads (hpos : 0 < h) (hproper : ∀ e, value = some e → ∀ t ∈ e.symbols, t.Proper) :
    Leads K kind h (valueCode value σ r) (h + 1) := by
  cases value with
  | none => exact .op .pushNil ⟨rfl, nofun, nofun⟩ hpos rfl
  | some e => exact e.leads hpos (hproper e rfl)

theorem defining_leads (hpos : 0 < σ.here.locals.length) (name : String) :
    Leads K kind (σ.here.locals.length + 1) (σ.defining name) (σ.define name).here.locals.length := by
  rw [Setting.length_define, Setting.defining]
  split
  · exact .named .defineGlobal name ⟨rfl, nofun, nofun⟩ (Nat.succ_lt_succ hpos) rfl
  · exact .nil

theorem proper_of_value (hproper : ∀ t ∈ variableSymbols name value, t.Proper) :
    ∀ e, value = some e → ∀ t ∈ e.symbols, t.Proper := by
  rintro e rfl
  simp only [variableSymbols, List.forall_mem_cons, List.forall_mem_append] at hproper
  exact hproper.2.2.2.1

theorem variable_leads (hpos : 0 < σ.here.locals.length) (hproper : ∀ t ∈ variableSymbols name value, t.Proper) :
    Leads K kind σ.here.locals.length (variableCode name value σ r) (σ.define name).here.locals.length :=
  .append (value_leads hpos (proper_of_value hproper)) (defining_leads hpos name)

theorem returning_leads (kind : FunctionKind) (hpos : 0 < h) (h' : Nat) : Leads K kind h (returning kind) h' := by
  by_cases hkind : kind = .initializer
  · rw [returning, if_pos hkind]
    exact .receiver h h'
  · rw [returning, if_neg hkind]
    exact .cons (.op .pushNil ⟨rfl, nofun, nofun⟩ hpos rfl) (.ret hkind (h + 1) h')

theorem Initializer.leads (init : Initializer) (hpos : 0 < σ.here.locals.length) (hproper : ∀ t ∈ init.symbols, t.Proper) :
    Leads K kind σ.here.locals.length (init.code σ r) (init.after σ).here.locals.length := by
  cases init with
  | none => exact .nil
  | var name value => exact variable_leads hpos hproper
  | expression e =>
    simp only [symbols, List.forall_mem_append] at hproper
    exact .append (e.leads hpos hproper.1) (.pop hpos)

end Parts

/-- Code that starts with the slots of the parameters is the code of a function. -/
theorem Symbolic.Leads.charted {arity h' : Nat} {code : Code} (hcode : Leads K kind (arity + 1) code h') :
    Charted K kind arity code := by
  obtain ⟨I, hc, hI⟩ := hcode.chart 0
  refine .intro (J := fun x s => I x s ∨ x = extent code ∧ s = h') ?_ (fun x s hx => ?_) ?_ hcode.inner
  · rcases hc.start with ⟨rfl, hh⟩ | hstart
    · exact .inr ⟨rfl, hh⟩
    · exact .inl hstart
  · rcases hx with hx | ⟨rfl, -⟩
    · obtain ⟨done, rest, hsplit, -, hx⟩ := hc.boundary x s hx
      exact ⟨done, rest, hsplit, by omega⟩
    · exact ⟨code, [], by simp, rfl⟩
  · intro done rest s hsplit hne hx
    rcases hx with hx | ⟨hx, -⟩
    · exact hI _ (fun _ _ => .inl) (.inr ⟨Nat.zero_add _, rfl⟩) done rest s hsplit hne hx
    · have hpos := extent_pos hne
      rw [hsplit, extent_append] at hx
      omega

theorem inner_classCode (name : String) (superclass : Option String) (σ : Setting) :
    Inner K (classCode name superclass σ) := by
  intro kind name' arity captured body hmem
  cases superclass <;> simp [classCode, Setting.defining] at hmem

mutual

/-- **A statement leaves the stack as it was.** -/
theorem Statement.leads : ∀ (s : Statement) {σ : Setting} {r : Receivers}, 0 < σ.here.locals.length →
    (∀ t ∈ s.symbols, t.Proper) → s.Legal σ → σ.Outermost → (∀ d ∈ s.classes, K d) →
      Leads K σ.here.kind σ.here.locals.length (s.code σ r) σ.here.locals.length
  | .expression e, σ, r, hpos, hproper, _, _, _ => by
    simp only [Statement.symbols, List.forall_mem_append] at hproper
    exact .append (e.leads hpos hproper.1) (.pop hpos)
  | .print e, σ, r, hpos, hproper, _, _, _ => by
    simp only [Statement.symbols, List.forall_mem_cons, List.forall_mem_append] at hproper
    exact .append (e.leads hpos hproper.2.1) (.op .print ⟨rfl, nofun, nofun⟩ (Nat.succ_lt_succ hpos) rfl)
  | .block body, σ, r, hpos, hproper, hlegal, _, hK => by
    simp only [Statement.symbols, List.forall_mem_append, List.forall_mem_cons] at hproper
    refine .append (Declaration.list_leads (σ := σ.enter) body hpos hproper.2.1 hlegal
      (Setting.outermost_of_depth (Nat.succ_ne_zero _)) hK) (Setting.leave_leads hpos ?_ _)
    obtain ⟨added, hlocals, -⟩ := (Declaration.encloses_afterList (Setting.encloses_enter σ) body).locals
    rw [hlocals, List.length_append]
    exact Nat.le_add_left _ _
  | .ifThen condition body, σ, r, hpos, hproper, hlegal, hσ, hK => by
    simp only [Statement.symbols, List.forall_mem_append, List.forall_mem_cons] at hproper
    exact .append (condition.leads hpos hproper.2.2.1)
      (.branch (.cons (.pop hpos) (body.leads hpos hproper.2.2.2.2 hlegal.2.1 hσ hK)) (.pop hpos))
  | .ifThenElse condition body otherwise, σ, r, hpos, hproper, hlegal, hσ, hK => by
    simp only [Statement.symbols, List.forall_mem_append, List.forall_mem_cons] at hproper
    simp only [Statement.classes, List.forall_mem_append] at hK
    exact .append (condition.leads hpos hproper.2.2.1)
      (.branch (.cons (.pop hpos) (body.leads hpos hproper.2.2.2.2.1 hlegal.2.1 hσ hK.1))
        (.cons (.pop hpos) (otherwise.leads hpos hproper.2.2.2.2.2.2 hlegal.2.2.2.1 hσ hK.2)))
  | .whileLoop condition body, σ, r, hpos, hproper, hlegal, hσ, hK => by
    simp only [Statement.symbols, List.forall_mem_append, List.forall_mem_cons] at hproper
    refine .loop hpos (fun p hp => ?_) nofun (body.leads hpos hproper.2.2.2.2 hlegal.2.1 hσ hK)
    cases hp
    exact condition.leads hpos hproper.2.2.1
  | .forLoop init condition increment body, σ, r, hpos, hproper, hlegal, _, hK => by
    simp only [Statement.symbols, List.forall_mem_append, List.forall_mem_cons] at hproper
    obtain ⟨-, -, hinit, hcondition, -, hincrement, -, hbody⟩ := hproper
    have hkind : (init.after σ.enter).here.kind = σ.here.kind := by
      cases init with
      | var name value => exact Setting.kind_define σ.enter name
      | none | expression e => rfl
    have hinner : (init.after σ.enter).Outermost := by
      cases init with
      | var name value => exact Setting.Outermost.define (Setting.outermost_of_depth (Nat.succ_ne_zero _)) name
      | none | expression e => exact Setting.outermost_of_depth (Nat.succ_ne_zero _)
    have hle : σ.here.locals.length ≤ (init.after σ.enter).here.locals.length := by
      cases init with
      | var name value => exact (Setting.length_define σ.enter name).symm ▸ by split <;> simp [Setting.enter]
      | none | expression e => exact le_rfl
    have hpos' := hpos.trans_le hle
    have hoption : ∀ (e : Option Expression), (∀ t ∈ Expression.optionSymbols e, t.Proper) →
        ∀ p, e.map (·.code (init.after σ.enter) r) = some p → Leads K σ.here.kind
          (init.after σ.enter).here.locals.length p ((init.after σ.enter).here.locals.length + 1) := by
      rintro e he p hp
      obtain ⟨e, rfl, rfl⟩ := Option.map_eq_some_iff.1 hp
      exact e.leads hpos' he
    exact .append (init.leads (σ := σ.enter) hpos hinit) (.append (.loop hpos' (hoption condition hcondition)
      (hoption increment hincrement) (hkind ▸ body.leads hpos' hbody hlegal.2.2.2.1 hinner hK))
      (Setting.leave_leads hpos hle _))
  | .ret none, σ, r, hpos, _, _, _, _ => returning_leads _ hpos _
  | .ret (some e), σ, r, hpos, hproper, hlegal, _, _ => by
    simp only [Statement.symbols, Expression.optionSymbols, List.forall_mem_append, List.forall_mem_cons] at hproper
    exact .append (e.leads hpos hproper.2.1) (.ret (hlegal.2.1 nofun) _ _)

/-- **After a declaration the local variables are the slots of the stack.** -/
theorem Declaration.leads : ∀ (d : Declaration) {σ : Setting} {r : Receivers}, 0 < σ.here.locals.length →
    (∀ t ∈ d.symbols, t.Proper) → d.Legal σ → σ.Outermost → (∀ c ∈ d.classes, K c) →
      Leads K σ.here.kind σ.here.locals.length (d.code σ r) (d.after σ).here.locals.length
  | .statement s, σ, r, hpos, hproper, hlegal, hσ, hK => s.leads hpos hproper hlegal hσ hK
  | .var name value, σ, r, hpos, hproper, _, _, _ => variable_leads hpos hproper
  | .function f, σ, r, hpos, hproper, hlegal, _, hK => by
    simp only [Declaration.symbols, List.forall_mem_cons] at hproper
    obtain ⟨kind, name, arity, captured, body, hcode, hbody⟩ := f.charted .function hproper.2 hlegal.2 hK
    rw [Declaration.code, hcode]
    exact .cons (.closure hbody hpos) (defining_leads hpos f.name)
  | .cls name superclass methods, σ, r, hpos, hproper, hlegal, hσ, hK => by
    simp only [Declaration.symbols, List.forall_mem_append, List.forall_mem_cons] at hproper
    obtain ⟨hself, hnested⟩ := List.forall_mem_cons.1 hK
    set d : ClassDeclaration := ⟨name, superclass, methods⟩
    have hmethods := Routine.inner_list (σ := d.inner σ)
      (r := r.within superclass (σ.define name).here.locals.length) methods hproper.2.2.2.2.1 hlegal.2.2 hnested
    have hinner : Inner K (d.code σ (r.within superclass (σ.define name).here.locals.length)) :=
      .append (inner_classCode name superclass σ) (hmethods.append (.single nofun))
    have hcode : (Declaration.cls name superclass methods).code σ r =
        d.code σ (r.within superclass (σ.define name).here.locals.length) ++
          superclass.elim [] fun _ => (σ.define name).leave (d.inner σ)
            (classUses name superclass σ ++ Routine.listUses methods (d.inner σ)) := by
      simp [Declaration.code, ClassDeclaration.code, ClassDeclaration.inner, d]
    rw [hcode]
    refine .append (.declares hself (d.fits hpos hσ hproper.2.1 hlegal.2.1) hinner) ?_
    cases superclass with
    | none => exact .nil
    | some s =>
      have hle : σ.here.locals.length ≤ (σ.define name).here.locals.length := by
        rw [Setting.length_define]
        split <;> omega
      refine Setting.leave_leads (hpos.trans_le hle) ?_ _
      change _ ≤ ((σ.define name).enter.define "super").here.locals.length
      rw [Setting.length_define (σ.define name).enter "super",
        if_neg (show (σ.define name).enter.here.depth ≠ 0 from Nat.succ_ne_zero _)]
      exact Nat.le_succ _

/-- **The code of a function is charted.** -/
theorem Routine.charted : ∀ (f : Routine) {σ : Setting} {r : Receivers} (kind : FunctionKind),
    (∀ t ∈ f.symbols, t.Proper) → f.Legal kind σ → (∀ d ∈ f.classes, K d) →
      ∃ kind' name arity captured body, f.code kind σ r = .closure kind' name arity captured body ∧
        Charted K kind' arity body
  | .mk name parameters body, σ, r, kind, hproper, hlegal, hK => by
    simp only [Routine.symbols, List.forall_mem_append, List.forall_mem_cons] at hproper
    obtain ⟨-, -, -, -, -, hbody, -⟩ := hproper
    obtain ⟨-, -, hlegal, -⟩ := hlegal
    have hparameters := Setting.length_parameters (σ := σ.begin kind) Nat.one_ne_zero parameters
    have hdepth := Setting.depth_parameters (σ := σ.begin kind) parameters
    have hkind := Setting.kind_parameters (σ := σ.begin kind) parameters
    have hpos : 0 < (parameters.foldl Setting.define (σ.begin kind)).here.locals.length := by
      rw [hparameters]
      exact Nat.lt_of_lt_of_le Nat.one_pos (Nat.le_add_right _ _)
    have hafter := hpos.trans_le (Declaration.length_le_afterList body _)
    have hcode := Declaration.list_leads (σ := parameters.foldl Setting.define (σ.begin kind))
      (r := r.enter kind σ.outer.length) body hpos hbody hlegal
      (Setting.outermost_of_depth (by rw [hdepth]; exact Nat.one_ne_zero)) hK
    rw [hparameters, Nat.add_comm, hkind] at hcode
    exact ⟨_, _, _, _, _, rfl, (hcode.append (returning_leads kind hafter 0)).charted⟩

theorem Declaration.list_leads : ∀ (body : List Declaration) {σ : Setting} {r : Receivers},
    0 < σ.here.locals.length → (∀ t ∈ Declaration.listSymbols body, t.Proper) → Declaration.ListLegal body σ → σ.Outermost →
      (∀ d ∈ Declaration.listClasses body, K d) →
      Leads K σ.here.kind σ.here.locals.length (Declaration.listCode body σ r)
        (Declaration.afterList body σ).here.locals.length
  | [], _, _, _, _, _, _, _ => .nil
  | d :: more, σ, r, hpos, hproper, hlegal, hσ, hK => by
    simp only [Declaration.listSymbols, List.forall_mem_append] at hproper
    simp only [Declaration.listClasses, List.forall_mem_append] at hK
    have hmore := Declaration.list_leads (σ := d.after σ) (r := r) more (hpos.trans_le (d.length_le_after σ)) hproper.2 hlegal.2 (d.outermost_after hσ) hK.2
    rw [d.kind_after σ] at hmore
    exact .append (d.leads hpos hproper.1 hlegal.1 hσ hK.1) hmore

theorem Routine.inner_list : ∀ (methods : List Routine) {σ : Setting} {r : Receivers},
    (∀ t ∈ Routine.listSymbols methods, t.Proper) → Routine.ListLegal methods σ →
      (∀ d ∈ Routine.listClasses methods, K d) → Inner K (Routine.listCode methods σ r)
  | [], _, _, _, _, _ => fun _ _ _ _ _ => nofun
  | .mk name parameters body :: more, σ, r, hproper, hlegal, hK => by
    simp only [Routine.listSymbols, List.forall_mem_append] at hproper
    simp only [Routine.listClasses, List.forall_mem_append] at hK
    obtain ⟨kind, name', arity, captured, body', hcode, hbody⟩ :=
      (Routine.mk name parameters body).charted (σ := σ) (r := r) (methodKind name) hproper.1 hlegal.1 hK.1
    rw [Routine.listCode, hcode]
    have hclosure : Leads K kind 1 [.closure kind name' arity captured body'] 2 := .closure hbody Nat.one_pos
    exact hclosure.inner.append (.append (a := [_]) (.single nofun)
      (Routine.inner_list more hproper.2 hlegal.2 hK.2))

end

/-! ## Programs -/

/-- **The code of a program is charted.** The class declarations in it are those of the program. -/
theorem charted_script {program : List Declaration}
    (hproper : ∀ t ∈ Declaration.listSymbols program, t.Proper) (hlegal : Legal program) :
    Charted (· ∈ Declaration.listClasses program) .script 0 (script program) := by
  have hpos : 0 < Setting.start.here.locals.length := Nat.one_pos
  exact ((Declaration.list_leads program hpos hproper hlegal.1 Setting.outermost_start fun _ => id).append
    (returning_leads .script (hpos.trans_le (Declaration.length_le_afterList program _)) 0)).charted

end LoxMachine
