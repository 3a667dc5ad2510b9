import LoxMachine.Proofs.Receivers.Places

/-!
# What mentions are compiled to

* `Corresponds R level mentions code`: the accesses of some code are those of some mentions, one by one.
* `Expression.corresponds`, `Statement.corresponds`, …: so are those of the code of a tree.
* `script_corresponds`: and those of the code of a program.
-/

namespace LoxMachine

open Symbolic

variable {σ : Setting} {r : Receivers} {around : List Layer} {level : Nat} {kind : FunctionKind}

namespace Symbolic

variable {α : Type} {R : α → Access → Prop} {a b code : Code} {i : Instruction} {ms ns : List α}

/-! ## Accesses of pieces of code -/

theorem accesses_append (a b : Code) (level : Nat) (before : Option Instruction) :
    accesses (a ++ b) level before = accesses a level before ++ accesses b level (a.getLast?.or before) := by
  induction a generalizing before with
  | nil => rfl
  | cons i a ih =>
    rw [List.cons_append, accesses, accesses, ih, List.append_assoc, List.getLast?_cons]
    cases a.getLast? <;> rfl

namespace Concluded

theorem append (ha : Concluded a) (hb : Concluded b) : Concluded (a ++ b) := by
  cases ha with
  | intro endsA innerA =>
    cases hb with
    | intro endsB innerB =>
      exact .intro
        (fun kind name arity captured body hi => (List.mem_append.1 hi).elim (endsA kind name arity captured body)
          (endsB kind name arity captured body))
        (fun kind name arity captured body hi => (List.mem_append.1 hi).elim (innerA kind name arity captured body)
          (innerB kind name arity captured body))

theorem single (hi : ∀ k n a c b, i ≠ .closure k n a c b) : Concluded [i] :=
  .intro (fun k n a c b hmem => absurd (List.mem_singleton.1 hmem).symm (hi k n a c b))
    (fun k n a c b hmem => absurd (List.mem_singleton.1 hmem).symm (hi k n a c b))

end Concluded

/-- The accesses of the code of a function with `level` functions around are those of the mentions, one by one. -/
structure Corresponds (R : α → Access → Prop) (level : Nat) (mentions : List α) (code : Code) : Prop where
  accesses : ∀ before, List.Forall₂ R mentions (Symbolic.accesses code level before)
  concluded : Concluded code

namespace Corresponds

theorem nil : Corresponds R level [] [] := ⟨fun _ => .nil, .intro nofun nofun⟩

theorem append (ha : Corresponds R level ms a) (hb : Corresponds R level ns b) :
    Corresponds R level (ms ++ ns) (a ++ b) :=
  ⟨fun before => accesses_append a b level before ▸ List.rel_append (ha.accesses before) (hb.accesses _),
    ha.concluded.append hb.concluded⟩

/-- Code without accesses follows. -/
theorem left (ha : Corresponds R level ms a) (hb : Corresponds R level [] b) : Corresponds R level ms (a ++ b) :=
  List.append_nil ms ▸ ha.append hb

/-- Code without accesses stands before. -/
theorem right (ha : Corresponds R level [] a) (hb : Corresponds R level ms b) : Corresponds R level ms (a ++ b) :=
  ha.append hb

/-- An instruction without accesses stands before. -/
theorem cons (hi : Corresponds R level [] [i]) (hb : Corresponds R level ms b) : Corresponds R level ms (i :: b) :=
  hi.right hb

/-- An instruction that makes no closure. -/
theorem single (hi : ∀ k n a c b, i ≠ .closure k n a c b)
    (h : ∀ before, List.Forall₂ R ms (i.accesses level before)) : Corresponds R level ms [i] :=
  ⟨fun before => by rw [Symbolic.accesses, Symbolic.accesses, List.append_nil]; exact h before, .single hi⟩

theorem op (o : Opcode) (ho : o.operands = .none) (hret : o ≠ .ret) : Corresponds R level [] [.op o] :=
  .single (by simp) fun _ => by simp [Instruction.accesses, Instruction.isRegular, ho, hret]

theorem named (o : Opcode) (name : String) (ho : o.operands = .constant) (hget : o ≠ .getGlobal)
    (hset : o ≠ .setGlobal) : Corresponds R level [] [.named o name] :=
  .single (by simp) fun _ => by simp [Instruction.accesses, Instruction.isRegular, ho, hget, hset]

theorem invoke (o : Opcode) (name : String) (count : Nat) (ho : o.operands = .invocation) :
    Corresponds R level [] [.invoke o name count] :=
  .single (by simp) fun _ => by simp [Instruction.accesses, Instruction.isRegular, ho]

theorem jump (o : Opcode) (distance : Nat) (ho : o.operands = .forward ∨ o.operands = .backward) :
    Corresponds R level [] [.jump o distance] :=
  .single (by simp) fun _ => by rcases ho with ho | ho <;> simp [Instruction.accesses, Instruction.isRegular, ho]

theorem call (count : Nat) : Corresponds R level [] [.call count] := .single (by simp) fun _ => .nil

theorem number (n : Number) : Corresponds R level [] [.number n] := .single (by simp) fun _ => .nil

theorem string (s : String) : Corresponds R level [] [.string s] := .single (by simp) fun _ => .nil

theorem pop : Corresponds R level [] [.op .pop] := op .pop rfl nofun

/-- The accesses of a function are those of the instruction that makes its closure. -/
theorem closure {name : String} {arity : Nat} {captured : List (Nat × Nat)} (h : Corresponds R (level + 1) ms code)
    (hends : returning kind <:+ code) : Corresponds R level ms [.closure kind name arity captured code] where
  accesses _ := by
    rw [Symbolic.accesses, Symbolic.accesses, List.append_nil, Instruction.accesses]
    exact h.accesses none
  concluded := by
    refine .intro (fun k n a c b hmem => ?_) (fun k n a c b hmem => ?_)
    · cases List.mem_singleton.1 hmem
      exact hends
    · cases List.mem_singleton.1 hmem
      exact h.concluded

theorem ops {os : List Opcode} (hos : ∀ o ∈ os, o.operands = .none ∧ o ≠ .ret) :
    Corresponds R level [] (os.map .op) := by
  induction os with
  | nil => exact nil
  | cons o os ih =>
    obtain ⟨⟨ho, hret⟩, hos⟩ := List.forall_mem_cons.1 hos
    exact (op o ho hret).cons (ih hos)

/-! ### Shapes of code -/

theorem across {o : Opcode} (ho : o.operands = .forward) (ha : Corresponds R level ms a) :
    Corresponds R level ms (Symbolic.across o a) :=
  (jump o _ (.inl ho)).cons ha

theorem branch (ha : Corresponds R level ms a) (hb : Corresponds R level ns b) :
    Corresponds R level (ms ++ ns) (Symbolic.branch a b) :=
  (jump .jumpIfFalse _ (.inl rfl)).cons (ha.append (across rfl hb))

variable {p q : Option Code} {ps qs : List α}

/-- The mentions of a part of a loop that may be missing. -/
def OfOption (R : α → Access → Prop) (level : Nat) (mentions : List α) (p : Option Code) : Prop :=
  Corresponds R level mentions (p.getD [])

theorem lap (head : Nat) (hq : OfOption R level qs q) (ha : Corresponds R level ms a) :
    Corresponds R level (qs ++ ms) (Symbolic.lap head q a) := by
  refine .append ?_ (ha.left (jump .loop _ (.inr rfl)))
  cases q with
  | none => exact hq
  | some code => exact across rfl (hq.left (pop.cons (jump .loop _ (.inr rfl))))

theorem loop (hp : OfOption R level ps p) (hq : OfOption R level qs q) (ha : Corresponds R level ms a) :
    Corresponds R level (ps ++ (qs ++ ms)) (Symbolic.loop p q a) := by
  cases p with
  | none =>
    obtain rfl : ps = [] := List.forall₂_nil_right_iff.1 (hp.accesses none)
    exact (lap 0 hq ha : Corresponds R level (qs ++ ms) _)
  | some code => exact .append hp (.left (across rfl (pop.cons (lap _ hq ha))) pop)

end Corresponds

end Symbolic

/-! ## Expressions -/

/-- The accesses of the code are those of some mentions at one point. -/
abbrev Symbolic.CorrespondsAt (around : List Layer) (σ : Setting) : List Mention → Code → Prop :=
  Corresponds (fun m => Resolves (m, around)) σ.outer.length

theorem Symbolic.Corresponds.read (name : String) (v : Variable) : CorrespondsAt around σ [.read name] [.get v] :=
  .single (by simp) fun _ => .cons (.read name around _) .nil

/-- The mentions at one point, with the layers around it. -/
theorem Symbolic.Corresponds.tagged {ms : List Mention} {code : Code}
    (h : Corresponds (fun m => Resolves (m, around)) level ms code) :
    Corresponds Resolves level (Mention.at around ms) code :=
  ⟨fun before => List.forall₂_map_left_iff.2 (h.accesses before), h.concluded⟩

/-- Mentions at one point, and others after them. -/
theorem Symbolic.Corresponds.and_then {ms : List Mention} {ns : List (Mention × List Layer)} {a b : Code}
    (ha : Corresponds (fun m => Resolves (m, around)) level ms a) (hb : Corresponds Resolves level ns b) :
    Corresponds Resolves level (Mention.at around ms ++ ns) (a ++ b) := ha.tagged.append hb

namespace Layer.Fits

variable (h : Fits around σ r)

include h

theorem gets_this (henclosed : Enclosed around) (hclasses : σ.classes ≠ []) :
    CorrespondsAt around σ [.this] [.get r.this] := .single (by simp) fun _ => by
  obtain ⟨place, hplace⟩ := henclosed (h.classes ▸ hclasses)
  rw [Instruction.accesses, h.this place hplace]
  exact .cons (.this hplace) .nil

theorem gets_super (hclasses : σ.classes.head? = some true) : CorrespondsAt around σ [.super] [.get r.super] :=
    .single (by simp) fun _ => by
  obtain ⟨place, hplace⟩ := superclass_of_classes (h.classes ▸ hclasses)
  rw [Instruction.accesses, h.super place hplace]
  exact .cons (.super hplace) .nil

theorem sets {name : String} (hname : (Symbol.name name).Proper) :
    CorrespondsAt around σ [.write name] [.set (σ.variable name)] := .single (by simp) fun _ =>
  .cons (.write name fun _ hplace => h.not_reserved hname hplace) .nil

end Layer.Fits

theorem classes_ne_of_head {classes : List Bool} {b : Bool} (h : classes.head? = some b) : classes ≠ [] := by
  rintro rfl
  cases h

namespace Expression

mutual

/-- **The mentions in an expression** are the accesses of its code. -/
theorem corresponds (hf : Layer.Fits around σ r) (henclosed : Layer.Enclosed around) :
    ∀ (e : Expression), (∀ t ∈ e.symbols, t.Proper) → e.Legal σ → CorrespondsAt around σ e.mentions (e.code σ r)
  | nil, _, _ => .op .pushNil rfl nofun
  | bool value, _, _ => by
    cases value <;> exact .op _ rfl nofun
  | number literal, _, _ => by
    unfold code
    cases Number.ofLiteral? literal with
    | none => exact .nil
    | some n => exact .number n
  | string literal, _, _ => .string _
  | read name, _, _ => .read name _
  | this, _, hlegal => hf.gets_this henclosed hlegal
  | grouping e, hproper, hlegal => by
    simp only [symbols, List.forall_mem_cons, List.forall_mem_append] at hproper
    exact e.corresponds hf henclosed hproper.2.1 hlegal
  | superProperty name, _, hlegal =>
    .append (hf.gets_this henclosed (classes_ne_of_head hlegal))
      (.left (hf.gets_super hlegal) (.named .getSuper name rfl nofun nofun))
  | superInvoke name arguments, hproper, hlegal => by
    simp only [symbols, List.forall_mem_cons, List.forall_mem_append] at hproper
    obtain ⟨hclasses, -, hlegal⟩ := hlegal
    exact .append (hf.gets_this henclosed (classes_ne_of_head hclasses)) (.append
      (list_corresponds hf henclosed arguments (proper_of_list hproper.2.2.2.2.1) hlegal)
      (.left (hf.gets_super hclasses) (.invoke .superInvoke name _ rfl)))
  | call callee arguments, hproper, hlegal => by
    simp only [symbols, List.forall_mem_cons, List.forall_mem_append] at hproper
    exact .append (callee.corresponds hf henclosed hproper.1 hlegal.1) (.left
      (list_corresponds hf henclosed arguments (proper_of_list hproper.2.2.1) hlegal.2.2) (.call _))
  | property target name, hproper, hlegal => by
    simp only [symbols, List.forall_mem_cons, List.forall_mem_append] at hproper
    exact .left (target.corresponds hf henclosed hproper.1 hlegal) (.named .getProperty name rfl nofun nofun)
  | invoke target name arguments, hproper, hlegal => by
    simp only [symbols, List.forall_mem_cons, List.forall_mem_append] at hproper
    exact .append (target.corresponds hf henclosed hproper.1 hlegal.1) (.left
      (list_corresponds hf henclosed arguments (proper_of_list hproper.2.2.2.2.1) hlegal.2.2)
      (.invoke .invoke name _ rfl))
  | unary operator e, hproper, hlegal => by
    simp only [symbols, List.forall_mem_cons] at hproper
    refine .left (e.corresponds hf henclosed hproper.2 hlegal) ?_
    cases operator <;> exact .op _ rfl nofun
  | binary operator left right, hproper, hlegal => by
    simp only [symbols, List.forall_mem_cons, List.forall_mem_append] at hproper
    refine .append (left.corresponds hf henclosed hproper.1 hlegal.1)
      (.left (right.corresponds hf henclosed hproper.2.2 hlegal.2) (.ops ?_))
    cases operator <;> simp [BinaryOperator.opcodes, Opcode.operands]
  | and left right, hproper, hlegal => by
    simp only [symbols, List.forall_mem_cons, List.forall_mem_append] at hproper
    exact .append (left.corresponds hf henclosed hproper.1 hlegal.1)
      (.across rfl (.cons .pop (right.corresponds hf henclosed hproper.2.2 hlegal.2.1)))
  | or left right, hproper, hlegal => by
    simp only [symbols, List.forall_mem_cons, List.forall_mem_append] at hproper
    exact .append (left.corresponds hf henclosed hproper.1 hlegal.1)
      (.branch .nil (.cons .pop (right.corresponds hf henclosed hproper.2.2 hlegal.2.1)))
  | assign name value, hproper, hlegal => by
    simp only [symbols, List.forall_mem_cons] at hproper
    exact .append (value.corresponds hf henclosed hproper.2.2 hlegal.2) (hf.sets hproper.1)
  | setProperty target name value, hproper, hlegal => by
    simp only [symbols, List.forall_mem_cons, List.forall_mem_append] at hproper
    exact .append (target.corresponds hf henclosed hproper.1 hlegal.1) (.left
      (value.corresponds hf henclosed hproper.2.2.2.2 hlegal.2) (.named .setProperty name rfl nofun nofun))

theorem list_corresponds (hf : Layer.Fits around σ r) (henclosed : Layer.Enclosed around) :
    ∀ (arguments : List Expression), (∀ e ∈ arguments, ∀ t ∈ e.symbols, t.Proper) → ListLegal arguments σ →
      CorrespondsAt around σ (listMentions arguments) (listCode arguments σ r)
  | [], _, _ => .nil
  | e :: more, hproper, hlegal => by
    obtain ⟨he, hmore⟩ := List.forall_mem_cons.1 hproper
    exact .append (e.corresponds hf henclosed he hlegal.1) (list_corresponds hf henclosed more hmore hlegal.2)

end

end Expression

/-! ## Statements and declarations -/

section Parts

variable {name : String} {value : Option Expression}

theorem value_corresponds (hf : Layer.Fits around σ r) (henclosed : Layer.Enclosed around)
    (hproper : ∀ e, value = some e → ∀ t ∈ e.symbols, t.Proper) (hlegal : Expression.OptionLegal value σ) :
    CorrespondsAt around σ (value.elim [] (·.mentions)) (valueCode value σ r) := by
  cases value with
  | none => exact .op .pushNil rfl nofun
  | some e => exact e.corresponds hf henclosed (hproper e rfl) hlegal

theorem defining_corresponds {α : Type} {R : α → Access → Prop} (σ : Setting) (name : String) :
    Corresponds R level [] (σ.defining name) := by
  unfold Setting.defining
  split
  · exact .named .defineGlobal name rfl nofun nofun
  · exact .nil

theorem variable_corresponds (hf : Layer.Fits around σ r) (henclosed : Layer.Enclosed around)
    (hproper : ∀ t ∈ variableSymbols name value, t.Proper) (hlegal : VariableLegal name value σ) :
    CorrespondsAt around σ (value.elim [] (·.mentions)) (variableCode name value σ r) := by
  have hw := Setting.Widens.initializing σ name
  have hvalue := value_corresponds (hf.widen hw) henclosed (proper_of_value hproper) hlegal.2
  rw [CorrespondsAt, hw.outer] at hvalue
  exact hvalue.left (defining_corresponds σ name)

theorem Initializer.corresponds (init : Initializer) (hf : Layer.Fits around σ r) (henclosed : Layer.Enclosed around)
    (hproper : ∀ t ∈ init.symbols, t.Proper) (hlegal : init.Legal σ) :
    CorrespondsAt around σ init.mentions (init.code σ r) := by
  cases init with
  | none => exact .nil
  | var name value => exact variable_corresponds hf henclosed hproper hlegal
  | expression e =>
    simp only [symbols, List.forall_mem_append] at hproper
    exact .left (e.corresponds hf henclosed hproper.1 hlegal) .pop

theorem option_corresponds (hf : Layer.Fits around σ r) (henclosed : Layer.Enclosed around)
    (hproper : ∀ t ∈ Expression.optionSymbols value, t.Proper) (hlegal : Expression.OptionLegal value σ) :
    Corresponds.OfOption (fun m => Resolves (m, around)) σ.outer.length (value.elim [] (·.mentions))
      (value.map (·.code σ r)) := by
  cases value with
  | none => exact .nil
  | some e => exact e.corresponds hf henclosed hproper hlegal

theorem leave_corresponds {α : Type} {R : α → Access → Prop} (σ inner : Setting) (uses : List (Nat × Nat)) :
    Corresponds R level [] (σ.leave inner uses) := by
  unfold Setting.leave
  generalize (List.range' _ _).reverse = slots
  induction slots with
  | nil => exact .nil
  | cons slot slots ih =>
    refine .cons (.op _ ?_ ?_) ih
    · split <;> rfl
    · split <;> exact nofun

/-- An initializer is left with its receiver, which has just been got. -/
theorem returning_corresponds (hkind : Layer.kind around = some kind) (hlevel : Layer.functions around = level + 1) :
    Corresponds Resolves level (Mention.at around (Mention.leaving kind)) (returning kind) := by
  refine .tagged ?_
  by_cases hinit : kind = .initializer
  · subst hinit
    have hreceiver := Layer.receiver_of_kind hkind rfl
    rw [hlevel, Nat.add_sub_cancel] at hreceiver
    exact ⟨fun _ => .cons (.this hreceiver) (.cons (.leave fun _ => rfl) .nil),
      .append (a := [.get (.own 0 "this")]) (.single (by simp)) (.single (by simp))⟩
  · rw [returning, if_neg hinit]
    have hleaving : Mention.leaving kind = [.leave] := by
      cases kind <;> first | rfl | exact absurd rfl hinit
    rw [hleaving]
    refine .cons (.op .pushNil rfl nofun) (.single (by simp) fun before => .cons (.leave fun h => ?_) .nil)
    exact absurd (Option.some.inj (hkind.symm.trans h)) hinit

theorem class_corresponds (name : String) (superclass : Option String) (σ : Setting) :
    CorrespondsAt around σ (classMentions name superclass) (classCode name superclass σ) := by
  refine .cons (.named .cls name rfl nofun nofun) ?_
  rw [List.append_assoc]
  refine .right (defining_corresponds σ name) (.append ?_ (.read name _))
  cases superclass with
  | none => exact .nil
  | some s => exact .append (.read s _) (.left (.read name _) (.op .inherit rfl nofun))

end Parts

theorem Setting.outer_methods (name : String) (superclass : Option String) (σ : Setting) :
    (methodsSetting name superclass σ).outer = σ.outer := by
  cases superclass with
  | none => exact Setting.outer_define σ name
  | some s => exact (Setting.outer_define _ _).trans (Setting.outer_define σ name)

mutual

/-- **The mentions in a statement** are the accesses of its code. -/
theorem Statement.corresponds : ∀ (s : Statement) {around : List Layer} {σ : Setting} {r : Receivers},
    Layer.Fits around σ r → Layer.Enclosed around → (∀ t ∈ s.symbols, t.Proper) → s.Legal σ →
      Corresponds Resolves σ.outer.length (s.mentions around σ) (s.code σ r)
  | .expression e, around, σ, r, hf, henclosed, hproper, hlegal => by
    simp only [Statement.symbols, List.forall_mem_append] at hproper
    exact .tagged (.left (e.corresponds hf henclosed hproper.1 hlegal) .pop)
  | .print e, around, σ, r, hf, henclosed, hproper, hlegal => by
    simp only [Statement.symbols, List.forall_mem_cons, List.forall_mem_append] at hproper
    exact .tagged (.left (e.corresponds hf henclosed hproper.2.1 hlegal) (.op .print rfl nofun))
  | .block body, around, σ, r, hf, henclosed, hproper, hlegal => by
    simp only [Statement.symbols, List.forall_mem_append, List.forall_mem_cons] at hproper
    exact .left (Declaration.list_corresponds body (hf.widen (.enter σ)) henclosed hproper.2.1 hlegal)
      (leave_corresponds σ _ _)
  | .ifThen condition body, around, σ, r, hf, henclosed, hproper, hlegal => by
    simp only [Statement.symbols, List.forall_mem_append, List.forall_mem_cons] at hproper
    have hbody := body.corresponds hf henclosed hproper.2.2.2.2 hlegal.2.1
    exact .and_then (condition.corresponds hf henclosed hproper.2.2.1 hlegal.1)
      (List.append_nil (body.mentions around σ) ▸ .branch (.cons .pop hbody) .pop)
  | .ifThenElse condition body otherwise, around, σ, r, hf, henclosed, hproper, hlegal => by
    simp only [Statement.symbols, List.forall_mem_append, List.forall_mem_cons] at hproper
    have hbody := body.corresponds hf henclosed hproper.2.2.2.2.1 hlegal.2.1
    have hotherwise := otherwise.corresponds hf henclosed hproper.2.2.2.2.2.2 hlegal.2.2.2.1
    exact .and_then (condition.corresponds hf henclosed hproper.2.2.1 hlegal.1)
      (.branch (.cons .pop hbody) (.cons .pop hotherwise))
  | .whileLoop condition body, around, σ, r, hf, henclosed, hproper, hlegal => by
    simp only [Statement.symbols, List.forall_mem_append, List.forall_mem_cons] at hproper
    have hcondition := condition.corresponds hf henclosed hproper.2.2.1 hlegal.1
    exact .loop (p := some (condition.code σ r)) (q := none) hcondition.tagged .nil
      (body.corresponds hf henclosed hproper.2.2.2.2 hlegal.2.1)
  | .forLoop init condition increment body, around, σ, r, hf, henclosed, hproper, hlegal => by
    simp only [Statement.symbols, List.forall_mem_append, List.forall_mem_cons] at hproper
    obtain ⟨-, -, hinit, hcondition, -, hincrement, -, hbody⟩ := hproper
    have hw := (Setting.Widens.enter σ).trans (.initializer init σ.enter)
    have hf' := hf.widen hw
    have hbody' := body.corresponds hf' henclosed hbody hlegal.2.2.2.1
    have hloop := Symbolic.Corresponds.loop (option_corresponds hf' henclosed hcondition hlegal.2.1).tagged
      (option_corresponds hf' henclosed hincrement hlegal.2.2.1).tagged hbody'
    rw [hw.outer] at hloop
    have hinit' : CorrespondsAt around σ init.mentions (init.code σ.enter r) :=
      init.corresponds (hf.widen (.enter σ)) henclosed hinit hlegal.1
    rw [Statement.mentions, Mention.at, List.map_append, List.map_append, List.append_assoc, List.append_assoc]
    exact hinit'.and_then (hloop.left (leave_corresponds σ (init.after σ.enter) _))
  | .ret none, around, σ, r, hf, _, _, _ => returning_corresponds hf.kind hf.level
  | .ret (some e), around, σ, r, hf, henclosed, hproper, hlegal => by
    simp only [Statement.symbols, Expression.optionSymbols, List.forall_mem_append, List.forall_mem_cons] at hproper
    refine .tagged (.append (e.corresponds hf henclosed hproper.2.1 hlegal.2.2)
      (.single (by simp) fun before => .cons (.leave fun h => ?_) .nil))
    exact absurd (Option.some.inj (hf.kind.symm.trans h)) (hlegal.2.1 nofun)

theorem Declaration.corresponds : ∀ (d : Declaration) {around : List Layer} {σ : Setting} {r : Receivers},
    Layer.Fits around σ r → Layer.Enclosed around → (∀ t ∈ d.symbols, t.Proper) → d.Legal σ →
      Corresponds Resolves σ.outer.length (d.mentions around σ) (d.code σ r)
  | .statement s, around, σ, r, hf, henclosed, hproper, hlegal => s.corresponds hf henclosed hproper hlegal
  | .var name value, around, σ, r, hf, henclosed, hproper, hlegal =>
    .tagged (variable_corresponds hf henclosed hproper hlegal)
  | .function f, around, σ, r, hf, henclosed, hproper, hlegal => by
    simp only [Declaration.symbols, List.forall_mem_cons] at hproper
    have hw := Setting.Widens.define σ f.name
    have hcode := f.corresponds .function (hf.widen hw) (henclosed.function .function) hproper.2 hlegal.2
    rw [hw.outer] at hcode
    exact .left (a := [_]) hcode (defining_corresponds σ f.name)
  | .cls name superclass methods, around, σ, r, hf, _, hproper, hlegal => by
    simp only [Declaration.symbols, List.forall_mem_append, List.forall_mem_cons] at hproper
    have hmethods := Routine.list_corresponds methods (hf.cls name superclass) hproper.2.2.2.2.1 hlegal.2.2
    rw [Setting.outer_methods] at hmethods
    refine .and_then (class_corresponds name superclass σ) (.left hmethods (.cons .pop ?_))
    cases superclass with
    | none => exact .nil
    | some s => exact leave_corresponds (σ.define name) (methodsSetting name (some s) σ) _

/-- **The mentions in a function** are the accesses of the code that makes its closure. -/
theorem Routine.corresponds : ∀ (f : Routine) (kind : FunctionKind) {around : List Layer} {σ : Setting} {r : Receivers},
    Layer.Fits around σ r → Layer.Enclosed (.function kind :: around) → (∀ t ∈ f.symbols, t.Proper) → f.Legal kind σ →
      Corresponds Resolves σ.outer.length (f.mentions kind around σ) [f.code kind σ r]
  | .mk name parameters body, kind, around, σ, r, hf, henclosed, hproper, hlegal => by
    simp only [Routine.symbols, List.forall_mem_append, List.forall_mem_cons] at hproper
    obtain ⟨-, -, -, -, -, hbody, -⟩ := hproper
    obtain ⟨-, -, hlegal, -⟩ := hlegal
    have hf' := (hf.function kind).widen (.parameters _ parameters)
    have hcode := Declaration.list_corresponds body hf' henclosed hbody hlegal
    rw [(Setting.Widens.parameters _ parameters).outer] at hcode
    exact .closure (hcode.append (returning_corresponds rfl (congrArg (· + 1) hf.level)))
      (List.suffix_append _ _)

theorem Declaration.list_corresponds : ∀ (body : List Declaration) {around : List Layer} {σ : Setting} {r : Receivers},
    Layer.Fits around σ r → Layer.Enclosed around → (∀ t ∈ Declaration.listSymbols body, t.Proper) →
      Declaration.ListLegal body σ →
      Corresponds Resolves σ.outer.length (Declaration.listMentions body around σ) (Declaration.listCode body σ r)
  | [], _, _, _, _, _, _, _ => .nil
  | d :: more, around, σ, r, hf, henclosed, hproper, hlegal => by
    simp only [Declaration.listSymbols, List.forall_mem_append] at hproper
    have hw := Setting.Widens.declaration d σ
    have hmore := Declaration.list_corresponds more (hf.widen hw) henclosed hproper.2 hlegal.2
    rw [hw.outer] at hmore
    exact .append (d.corresponds hf henclosed hproper.1 hlegal.1) hmore

theorem Routine.list_corresponds : ∀ (methods : List Routine) {around : List Layer} {σ : Setting} {r : Receivers},
    Layer.Fits around σ r → (∀ t ∈ Routine.listSymbols methods, t.Proper) → Routine.ListLegal methods σ →
      Corresponds Resolves σ.outer.length (Routine.listMentions methods around σ) (Routine.listCode methods σ r)
  | [], _, _, _, _, _, _ => .nil
  | .mk name parameters body :: more, around, σ, r, hf, hproper, hlegal => by
    simp only [Routine.listSymbols, List.forall_mem_append] at hproper
    have hkind : receives (methodKind name) = true := by
      unfold methodKind
      split <;> rfl
    have hfirst := (Routine.mk name parameters body).corresponds (methodKind name) hf (Layer.enclosed_method hkind)
      hproper.1 hlegal.1
    exact .append hfirst (.cons (.named .method name rfl nofun nofun)
      (Routine.list_corresponds more hf hproper.2 hlegal.2))

end

/-! ## Programs -/

/-- **The mentions in a program** are the accesses of its code. -/
theorem script_corresponds {program : List Declaration} (hproper : ∀ t ∈ Declaration.listSymbols program, t.Proper)
    (hlegal : Legal program) : Corresponds Resolves 0 (programMentions program) (script program) :=
  (Declaration.list_corresponds program .start Layer.enclosed_script hproper hlegal.1).append
    (returning_corresponds rfl rfl)

end LoxMachine
