import LoxMachine.Proofs.Grammar.Declaring
import LoxMachine.Proofs.Meaning.Desks

/-!
# The code of trees does what the evaluator says

* `Setting.Shows σ names`: the names of the local variables at a point of a script.
* `Plain.Expression.performs`, `Plain.Statement.performs` and `Plain.Declaration.performs`: the code of a legal
  tree does what evaluating it comes to. Where the evaluation is interrupted, the code goes on for at least as
  many instructions as loops were allowed turns.
-/

namespace LoxMachine

open Symbolic

variable {code : Code} {σ : Setting} {r : Receivers} {names : List String} {name : String} {fuel o : Nat}
  {results : List Datum}

/-! ## Variables -/

/-- The names of the local variables of a script, the innermost first. -/
structure Setting.Shows (σ : Setting) (names : List String) : Prop where
  outer : σ.outer = []
  locals : σ.here.locals.map Local.name = names ++ [""]

/-- The variable of a name is the innermost one of that name, or global. -/
inductive Setting.Finds (σ : Setting) (names : List String) (name : String) : Prop
  | global (h : σ.variable name = .global name) (hnot : name ∉ names)
  | own (inner outer : List String) (h : σ.variable name = .own (outer.length + 1) name)
    (hnames : names = inner ++ name :: outer) (hinner : name ∉ inner)

namespace Draft

theorem findLocal_eq_none {locals : List Local} (h : name ∉ locals.map Local.name) :
    findLocal name locals = none := by
  induction locals with
  | nil => rfl
  | cons l locals ih =>
    rw [List.map_cons, List.mem_cons, not_or] at h
    rw [findLocal, if_neg (Ne.symm h.1), ih h.2]

theorem findLocal_of_names {locals : List Local} {inner outer : List String}
    (h : locals.map Local.name = inner ++ name :: outer) (hinner : name ∉ inner) :
    ∃ v, findLocal name locals = some (outer.length, v) := by
  induction inner generalizing locals with
  | nil =>
    obtain ⟨l, locals, rfl, hl, rfl⟩ := List.map_eq_cons_iff.1 h
    exact ⟨l, by rw [findLocal, if_pos hl, List.length_map]⟩
  | cons n inner ih =>
    obtain ⟨l, locals, rfl, rfl, hlocals⟩ := List.map_eq_cons_iff.1 h
    rw [List.mem_cons, not_or] at hinner
    rw [findLocal, if_neg (Ne.symm hinner.1)]
    exact ih hlocals hinner.2

end Draft

namespace Setting

/-- In a script, a name is looked up among its local variables. -/
theorem variable_script (houter : σ.outer = []) (name : String) : σ.variable name =
    match Draft.findLocal name σ.here.locals with
    | none => .global name
    | some (slot, _) => .own slot name := by
  unfold Setting.variable functions
  rw [houter]
  unfold lookup
  cases Draft.findLocal name σ.here.locals <;> rfl

theorem Shows.finds (h : σ.Shows names) (hname : name ≠ "") : σ.Finds names name := by
  have hvariable := variable_script h.outer name
  by_cases hmem : name ∈ names
  · obtain ⟨inner, outer, rfl, hinner⟩ := List.eq_append_cons_of_mem hmem
    have hlocals := h.locals
    rw [List.append_assoc, List.cons_append] at hlocals
    obtain ⟨v, hv⟩ := Draft.findLocal_of_names hlocals hinner
    rw [hv, List.length_append] at hvariable
    exact .own inner outer hvariable rfl hinner
  · rw [Draft.findLocal_eq_none (by simp [h.locals, hmem, hname])] at hvariable
    exact .global hvariable hmem

/-- In the initializer of a variable, others are found as outside. -/
theorem Shows.finds_initializing {new : String} (h : σ.Shows names) (hname : name ≠ "")
    (husable : (σ.initializing new).Usable name) : (σ.initializing new).Finds names name := by
  by_cases hdepth : σ.here.depth = 0
  · rw [initializing, if_pos hdepth]
    exact h.finds hname
  have hinit : σ.initializing new = { σ with here := σ.here.push new none } := by rw [initializing, if_neg hdepth]
  rw [hinit] at husable ⊢
  have hne : new ≠ name := by
    rintro rfl
    have hlookup : lookup new (functions { σ with here := σ.here.push new none }) =
        some ((σ.outer.length, σ.here.locals.length), { name := new, depth := none }) := by
      simp only [functions, lookup, FunctionScope.push, Draft.findLocal, if_pos]
    exact husable _ _ hlookup rfl
  have hsame : Setting.variable { σ with here := σ.here.push new none } name = σ.variable name := by
    rw [variable_script h.outer, variable_script (σ := { σ with here := σ.here.push new none }) h.outer]
    simp only [FunctionScope.push, Draft.findLocal, if_neg hne]
  cases h.finds hname with
  | global hv hnot => exact .global (hsame.trans hv) hnot
  | own inner outer hv hnames hinner => exact .own inner outer (hsame.trans hv) hnames hinner

theorem Shows.define (h : σ.Shows names) (new : String) :
    (σ.define new).Shows (if σ.here.depth = 0 then names else new :: names) := by
  unfold Setting.define
  split
  · exact h
  · exact ⟨h.outer, by simp [FunctionScope.push, h.locals]⟩

theorem Shows.enter (h : σ.Shows names) : σ.enter.Shows names := ⟨h.outer, h.locals⟩

theorem Shows.length (h : σ.Shows names) : σ.here.locals.length = names.length + 1 := by
  have hlength := congrArg List.length h.locals
  simpa using hlength

end Setting

namespace Plain

/-! ## Looking up -/

variable {s : Store} {inner outer : List String} {x : Datum}

theorem lookup_eq_none (h : name ∉ s.names) : s.locals.lookup name = none := by
  rw [List.lookup_eq_none_iff]
  intro p hp
  rw [bne_iff_ne]
  rintro rfl
  exact h (List.mem_map_of_mem hp)

/-- The innermost variable of a name. -/
theorem locals_of_names (h : s.names = inner ++ name :: outer) (hinner : name ∉ inner) : ∃ x,
    s.locals.lookup name = some x ∧ (s.locals.map Prod.snd)[inner.length]? = some x ∧
      ∀ d, (update name d s.locals).map Prod.fst = s.names ∧
        (update name d s.locals).map Prod.snd = (s.locals.map Prod.snd).set inner.length d := by
  unfold Store.names at h ⊢
  generalize s.locals = locals at h ⊢
  induction inner generalizing locals with
  | nil =>
    obtain ⟨⟨n, x⟩, locals, rfl, rfl, rfl⟩ := List.map_eq_cons_iff.1 h
    exact ⟨x, List.lookup_cons_self, rfl, fun d => by simp [update]⟩
  | cons n inner ih =>
    obtain ⟨⟨n', y⟩, locals, rfl, rfl, hlocals⟩ := List.map_eq_cons_iff.1 h
    rw [List.mem_cons, not_or] at hinner
    obtain ⟨x, hlookup, hx, hupdate⟩ := ih hinner.2 locals hlocals
    have hne : (name == n') = false := beq_eq_false_iff_ne.2 hinner.1
    refine ⟨x, by rw [List.lookup_cons, hne]; exact hlookup, by simpa using hx, fun d => ?_⟩
    obtain ⟨hfst, hsnd⟩ := hupdate d
    rw [update, if_neg (Ne.symm hinner.1)]
    simp [hfst, hsnd]

theorem get_bind {α : Type} (f : Store → Eval α) (s : Store) : (get >>= f) s = f s s := rfl

theorem readName_performs (hfinds : σ.Finds names name) (hat : Lies code o [.get (σ.variable name)]) :
    Performs code fuel (readName name) names names o (o + 2) results fun d => d :: results := by
  refine .single hat fun s hs => ?_
  cases hfinds with
  | global hv hnot =>
    rw [hv]
    have hnone := lookup_eq_none (hs ▸ hnot)
    cases hg : s.globals name with
    | none =>
      have hread : readName name s = .error (.failed (.undefinedVariable name)) s := by
        rw [readName, get_bind]
        simp only [hnone, hg]
        rfl
      rw [hread]
      exact ⟨.getUndefined hg, rfl⟩
    | some d =>
      have hread : readName name s = .ok d s := by
        rw [readName, get_bind]
        simp only [hnone, hg]
        rfl
      rw [hread]
      exact ⟨hs, .getGlobal hg⟩
  | own inner outer hv hnames hinner =>
    rw [hv]
    obtain ⟨x, hlookup, hx, -⟩ := locals_of_names (hs.trans hnames) hinner
    have hread : readName name s = .ok x s := by
      rw [readName, get_bind]
      simp only [hlookup]
      rfl
    rw [hread]
    refine ⟨hs, .getLocal (j := results.length + inner.length) ?_ ?_⟩
    · have hlength : s.locals.length = inner.length + (outer.length + 1) := by
        have hlength := congrArg List.length (hs.trans hnames)
        simpa [Store.names] using hlength
      simp [Store.desk, hlength, Nat.add_assoc]
    · rwa [Store.desk, List.getElem?_append_right (Nat.le_add_right _ _), Nat.add_sub_cancel_left]

theorem assignName_performs (hfinds : σ.Finds names name) (hat : Lies code o [.set (σ.variable name)]) (d : Datum) :
    Performs code fuel (assignName name d) names names o (o + 2) (d :: results) fun _ => d :: results := by
  refine .single hat fun s hs => ?_
  cases hfinds with
  | global hv hnot =>
    rw [hv]
    have hnone := lookup_eq_none (hs ▸ hnot)
    cases hg : s.globals name with
    | none =>
      have hassign : assignName name d s = .error (.failed (.undefinedVariable name)) s := by
        rw [assignName, get_bind]
        simp only [hnone, hg]
        rfl
      rw [hassign]
      exact ⟨.setUndefined rfl hg, rfl⟩
    | some y =>
      have hassign : assignName name d s = .ok () { s with globals := extend s.globals name d } := by
        rw [assignName, get_bind]
        simp only [hnone, hg]
        rfl
      rw [hassign]
      exact ⟨hs, .setGlobal rfl hg⟩
  | own inner outer hv hnames hinner =>
    rw [hv]
    obtain ⟨x, hlookup, hx, hupdate⟩ := locals_of_names (hs.trans hnames) hinner
    obtain ⟨hfst, hsnd⟩ := hupdate d
    have hassign : assignName name d s = .ok () { s with locals := update name d s.locals } := by
      rw [assignName, get_bind]
      simp only [hlookup]
      rfl
    rw [hassign]
    have hlength : s.locals.length = inner.length + (outer.length + 1) := by
      have hlength := congrArg List.length (hs.trans hnames)
      simpa [Store.names] using hlength
    have hacts : Acts (.set (.own (outer.length + 1) name)) (s.desk o (d :: results))
        (.ok ((s.desk o (d :: results)).next 2 ((s.desk o (d :: results)).stack.set
          ((d :: results).length + inner.length) d))) := by
      refine .setLocal ?_ ?_ rfl <;> simp only [Store.desk, List.length_append, List.length_map, hlength] <;> omega
    have hdesk : (s.desk o (d :: results)).next 2 ((s.desk o (d :: results)).stack.set
        ((d :: results).length + inner.length) d) =
          { s with locals := update name d s.locals }.desk (o + 2) (d :: results) := by
      have hset : ((d :: results) ++ s.locals.map Prod.snd).set ((d :: results).length + inner.length) d =
          (d :: results) ++ (s.locals.map Prod.snd).set inner.length d := by
        rw [List.set_append_right _ _ (Nat.le_add_right _ _), Nat.add_sub_cancel_left]
      simp only [Store.desk, Desk.next, hsnd, hset]
    exact ⟨hfst.trans hs, hdesk ▸ hacts⟩

/-! ## Expressions -/

/-- The usable names are found. -/
def Finding (σ : Setting) (names : List String) : Prop :=
  ∀ name, name ≠ "" → σ.Usable name → σ.Finds names name

/-- A literal pushes its datum. -/
theorem literal_performs {i : Symbolic.Instruction} {x : Datum} (hi : i.literal? = some x) (hat : Lies code o [i]) :
    Performs code fuel (pure x) names names o (o + i.size) results fun d => d :: results :=
  .single hat fun _ hs => ⟨hs, .literal hi⟩

/-- An operator pops its operands and pushes its result, or fails. -/
theorem ofExcept_performs {i : Symbolic.Instruction} {result : Except RuntimeError Datum} (operands : List Datum)
    (hat : Lies code o [i]) (hacts : ∀ s : Store, Acts i (s.desk o (operands ++ results))
      (result.map fun y => s.desk (o + 1) (y :: results))) :
    Performs code fuel (ofExcept result) names names o (o + 1) (operands ++ results) fun d => d :: results := by
  refine .single hat fun s hs => ?_
  have ha := hacts s
  cases result with
  | ok y => exact ⟨hs, ha⟩
  | error e => exact ⟨ha, rfl⟩

theorem unary_performs (operator : UnaryOperator) (x : Datum) (hat : Lies code o [.op operator.opcode]) :
    Performs code fuel (ofExcept (operator.apply x)) names names o (o + 1) (x :: results) fun d => d :: results :=
  ofExcept_performs [x] hat fun _ => .unary operator rfl

/-- Three operators are the opposite of another one. -/
theorem opposite {operator : BinaryOperator} {op op' : Opcode} (h : operator.opcodes = [op, op']) :
    ∃ opposite : BinaryOperator, opposite.opcodes = [op] ∧ op' = UnaryOperator.not.opcode ∧ ∀ x y,
      ofExcept (operator.apply x y) =
        (do ofExcept (UnaryOperator.not.apply (← ofExcept (opposite.apply x y)))) := by
  cases operator <;> simp only [BinaryOperator.opcodes, List.cons.injEq, reduceCtorEq, and_false, and_true] at h <;>
    obtain ⟨rfl, rfl⟩ := h
  · exact ⟨.equal, rfl, rfl, fun x y => rfl⟩
  · exact ⟨.less, rfl, rfl, fun x y => by cases x <;> cases y <;> rfl⟩
  · exact ⟨.greater, rfl, rfl, fun x y => by cases x <;> cases y <;> rfl⟩

theorem binary_performs (operator : BinaryOperator) (x y : Datum)
    (hat : Lies code o (operator.opcodes.map .op)) :
    Performs code fuel (ofExcept (operator.apply x y)) names names o (o + extent (operator.opcodes.map .op))
      (y :: x :: results) fun d => d :: results := by
  have hone : ∀ {operator : BinaryOperator} {op : Opcode}, operator.opcodes = [op] → Lies code o [.op op] →
      Performs code fuel (ofExcept (operator.apply x y)) names names o (o + 1) (y :: x :: results)
        fun d => d :: results := fun hop hat =>
    ofExcept_performs [y, x] hat fun _ => .binary hop rfl
  rcases hop : operator.opcodes with _ | ⟨op, _ | ⟨op', _ | _⟩⟩
  · cases operator <;> simp [BinaryOperator.opcodes] at hop
  · rw [hop] at hat
    exact hone hop hat
  · rw [hop] at hat
    obtain ⟨opposite, hopposite, rfl, heq⟩ := opposite hop
    rw [heq]
    exact .bind (hone hopposite hat.head) fun z => unary_performs .not z hat.tail
  · cases operator <;> simp [BinaryOperator.opcodes] at hop

namespace Expression

/-- **The code of an expression pushes its value.** -/
theorem performs (e : Expression) {o : Nat} {results : List Datum} (hfinds : Finding σ names)
    (hlegal : e.tree.Legal σ) (hat : Lies code o (e.tree.code σ r)) :
    Performs code fuel e.eval names names o (o + extent (e.tree.code σ r)) results fun d => d :: results := by
  induction e generalizing o results with
  | nil => exact literal_performs rfl hat
  | bool value => cases value <;> exact literal_performs rfl hat
  | number literal =>
    simp only [tree, LoxMachine.Expression.code, literal.value_eq, Option.toList_some, List.map_cons,
      List.map_nil] at hat ⊢
    exact literal_performs rfl hat
  | string literal => exact literal_performs rfl hat
  | read name => exact readName_performs (hfinds _ name.nonempty hlegal) hat
  | grouping e ih => exact ih hlegal hat
  | unary operator e ih =>
    simp only [tree, LoxMachine.Expression.code, extent_append, ← Nat.add_assoc] at hat ⊢
    exact .bind (ih hlegal hat.left) fun x => unary_performs operator x hat.right
  | binary operator left right ihl ihr =>
    simp only [tree, LoxMachine.Expression.code, extent_append, ← Nat.add_assoc] at hat ⊢
    exact .bind (ihl hlegal.1 hat.left) fun x => .bind (ihr hlegal.2 hat.right.left) fun y =>
      binary_performs operator x y hat.right.right
  | and left right ihl ihr =>
    simp only [tree, LoxMachine.Expression.code, across, extent_append] at hat ⊢
    refine .bind (ihl hlegal.1 hat.left) fun x => .choice hat.right.head (fun _ => ?_) fun _ => ?_
    · exact .done (by simp only [extent_cons, Symbolic.Instruction.size]; omega) rfl
    · exact .after_pop hat.right.tail.head (.congr (ihr hlegal.2.1 hat.right.tail.tail) rfl
        (by simp only [extent_cons, Symbolic.Instruction.size]; omega))
  | or left right ihl ihr =>
    simp only [tree, LoxMachine.Expression.code, branch, across, extent_append, List.nil_append,
      extent_nil] at hat ⊢
    refine .bind (ihl hlegal.1 hat.left) fun x => .choice hat.right.head (fun _ => ?_) fun _ => ?_
    · exact .after_pop hat.right.tail.tail.head (.congr (ihr hlegal.2.1 hat.right.tail.tail.tail) rfl
        (by simp only [extent_cons, Symbolic.Instruction.size]; omega))
    · exact .after_jump hat.right.tail.head (.done
        (by simp only [extent_cons, Symbolic.Instruction.size]; omega) rfl)
  | assign name value ih =>
    simp only [tree, LoxMachine.Expression.code, extent_append, ← Nat.add_assoc] at hat ⊢
    refine .bind (ih hlegal.2 hat.left) fun d => ?_
    exact .bind (assignName_performs (hfinds _ name.nonempty hlegal.1) hat.right d) fun _ => .done rfl rfl

end Expression

/-! ## Scopes -/

section Uses

/-- Where no functions are, none has captured a variable. -/
theorem access_captured (houter : σ.outer = []) (name : String) : (σ.access name).captured = [] := by
  unfold Setting.access
  split
  · rfl
  · simp [houter]

theorem Expression.captured_eq_nil (e : Expression) (houter : σ.outer = []) : (e.tree.footprint σ).captured = [] := by
  induction e with
  | read name => exact access_captured houter name.text
  | assign name value ih => simp [tree, LoxMachine.Expression.footprint, access_captured houter, ih]
  | grouping e ih => exact ih
  | unary operator e ih => simp [tree, LoxMachine.Expression.footprint, ih]
  | binary operator left right ihl ihr => simp [tree, LoxMachine.Expression.footprint, ihl, ihr]
  | and left right ihl ihr => simp [tree, LoxMachine.Expression.footprint, ihl, ihr]
  | or left right ihl ihr => simp [tree, LoxMachine.Expression.footprint, ihl, ihr]
  | _ => rfl

theorem outer_initializing (houter : σ.outer = []) (name : String) : (σ.initializing name).outer = [] := by
  unfold Setting.initializing
  split <;> exact houter

theorem outer_define (houter : σ.outer = []) (name : String) : (σ.define name).outer = [] := by
  unfold Setting.define
  split <;> exact houter

theorem option_captured (e : Option Expression) (houter : σ.outer = []) :
    (LoxMachine.Expression.optionFootprint (e.map Expression.tree) σ).captured = [] := by
  cases e with
  | none => rfl
  | some e => exact e.captured_eq_nil houter

theorem value_captured (value : Option Expression) (houter : σ.outer = []) (name : String) :
    ((value.map Expression.tree).elim [] fun e => (e.footprint (σ.initializing name)).captured) = [] := by
  cases value with
  | none => rfl
  | some e => exact e.captured_eq_nil (outer_initializing houter name)

theorem Initializer.uses_eq_nil (init : Initializer) (houter : σ.outer = []) : init.tree.uses σ = [] := by
  cases init with
  | none => rfl
  | var name value => exact value_captured value houter name.text
  | expression e => exact e.captured_eq_nil houter

theorem Initializer.outer_after (init : Initializer) (houter : σ.outer = []) : (init.tree.after σ).outer = [] := by
  cases init with
  | var name value => exact outer_define houter name.text
  | none | expression e => exact houter

mutual

theorem Statement.uses_eq_nil : ∀ (s : Statement) {σ : Setting}, σ.outer = [] → s.tree.uses σ = []
  | .expression e, _, houter | .print e, _, houter => e.captured_eq_nil houter
  | .block body, σ, houter => by
    have hbody := Declaration.listUses_eq_nil body (σ := σ.enter) houter
    simp [Statement.tree, LoxMachine.Statement.uses, hbody, Setting.remaining]
  | .ifThen condition body, σ, houter | .whileLoop condition body, σ, houter => by
    simp [Statement.tree, LoxMachine.Statement.uses, condition.captured_eq_nil houter, body.uses_eq_nil houter]
  | .ifThenElse condition body otherwise, σ, houter => by
    simp [Statement.tree, LoxMachine.Statement.uses, condition.captured_eq_nil houter, body.uses_eq_nil houter,
      otherwise.uses_eq_nil houter]
  | .forLoop init condition increment body, σ, houter => by
    have hinner := init.outer_after (σ := σ.enter) houter
    simp [Statement.tree, LoxMachine.Statement.uses, init.uses_eq_nil (σ := σ.enter) houter,
      option_captured condition hinner, option_captured increment hinner, body.uses_eq_nil hinner,
      Setting.remaining]

theorem Declaration.uses_eq_nil : ∀ (d : Declaration) {σ : Setting}, σ.outer = [] → d.tree.uses σ = []
  | .statement s, _, houter => s.uses_eq_nil houter
  | .var name value, _, houter => value_captured value houter name.text

theorem Declaration.listUses_eq_nil : ∀ (body : List Declaration) {σ : Setting}, σ.outer = [] →
    LoxMachine.Declaration.listUses (Declaration.trees body) σ = []
  | [], _, _ => rfl
  | d :: more, σ, houter => by
    have hafter : (d.tree.after σ).outer = [] := by
      cases d with
      | statement s => exact houter
      | var name value => exact outer_define houter name.text
    simp [Declaration.trees, LoxMachine.Declaration.listUses, d.uses_eq_nil houter,
      Declaration.listUses_eq_nil more hafter]

end

end Uses

/-- The end of a scope in which nothing has been captured. -/
theorem leave_eq (σ inner : Setting) :
    σ.leave inner [] = List.replicate (inner.here.locals.length - σ.here.locals.length) (.op .pop) := by
  simp [Setting.leave, List.map_const']

theorem extent_pops (k : Nat) : extent (List.replicate k (.op .pop)) = k := by
  simp [extent, Symbolic.Instruction.size]

theorem moves_pops {d : Desk} {k : Nat} (hat : Lies code d.ip (List.replicate k (.op .pop)))
    (hle : k ≤ d.stack.length) : Moves code k d (d.next k (d.stack.drop k)) := by
  induction k generalizing d with
  | zero => exact .refl d
  | succ k ih =>
    cases hs : d.stack with
    | nil =>
      rw [hs] at hle
      cases hle
    | cons x rest =>
      rw [hs, List.length_cons] at hle
      have hmore := ih (d := d.next 1 rest) hat.tail (Nat.le_of_succ_le_succ hle)
      have heq : (d.next 1 rest).next k (rest.drop k) = d.next (k + 1) ((x :: rest).drop (k + 1)) := by
        simp [Desk.next, Nat.add_assoc, Nat.add_comm 1 k]
      exact .step hat.head (.pop hs) (heq ▸ hmore)

/-- The variables of a scope are forgotten when their values are popped. -/
theorem inScope_performs {x : Eval Unit} {added : List String} {p : Nat}
    (h : Performs code fuel x names (added ++ names) o p [] fun _ => [])
    (hat : Lies code p (List.replicate added.length (.op .pop))) :
    Performs code fuel (inScope x) names names o (p + added.length) [] fun _ => [] := by
  have hleave : Performs code fuel (modify fun s : Store =>
      { s with locals := s.locals.drop (s.locals.length - names.length) }) (added ++ names) names p
      (p + added.length) [] fun _ => [] := by
    intro s hs
    have hlength : s.locals.length = added.length + names.length := by
      simpa [Store.names] using congrArg List.length hs
    have hcount : s.locals.length - names.length = added.length := by omega
    refine ⟨?_, added.length, ?_⟩
    · simp only [Store.names, hcount, List.map_drop]
      rw [show s.locals.map Prod.fst = added ++ names from hs, List.drop_left]
    · have hmoves := moves_pops (d := s.desk p []) hat (by simp [Store.desk, hlength])
      simpa [Store.desk, Desk.next, hcount, List.map_drop] using hmoves
  intro s hs
  have hlength : s.locals.length = names.length := by simpa [Store.names] using congrArg List.length hs
  have hall := (h.bind fun _ => hleave) s hs
  rw [← hlength] at hall
  exact hall

/-! ## Loops -/

/-- A loop whose condition has been evaluated, and what follows one time through it. -/
def proceed (body next : Eval Unit) (condition : Datum) : Eval Unit :=
  if condition.isFalsey then pure () else do body; next

theorem repeatWhile_succ (condition : Eval Datum) (body : Eval Unit) (n : Nat) :
    repeatWhile condition body (n + 1) = condition >>= proceed body (repeatWhile condition body n) := by
  rw [repeatWhile]
  congr

/-- **A loop.** Every time through it takes at least the instruction that goes back. -/
theorem repeatWhile_performs {condition : Eval Datum} {body : Eval Unit} {i : Symbolic.Instruction} {back o' : Nat}
    (hback : Lies code back [i]) (hacts : ∀ s : Store, Acts i (s.desk back []) (.ok (s.desk o [])))
    (hturn : ∀ k ≤ fuel, ∀ next, Performs code k next names names back o' [] (fun _ => []) →
      Performs code k (condition >>= proceed body next) names names o o' [] fun _ => []) {n : Nat} (hn : n ≤ fuel) :
    Performs code n (repeatWhile condition body n) names names o o' [] fun _ => [] := by
  induction n with
  | zero => exact fun s _ => ⟨0, s.desk o [], le_rfl, .refl _⟩
  | succ n ih =>
    rw [repeatWhile_succ]
    refine hturn _ hn _ ?_
    rw [Nat.add_comm]
    exact .step hback (fun s _ => hacts s) (ih (Nat.le_of_succ_le hn))

section Laps

variable {body : Eval Unit} {b : Code} {increment condition : Option Expression} {head : Nat}

/-- The code of an expression that may be missing. -/
def codes (σ : Setting) (r : Receivers) (e : Option Expression) : Option Code :=
  (e.map Expression.tree).map (·.code σ r)

/-- **One time through a loop, after its condition.** The increment stands before the body. -/
theorem lap_performs (hat : Lies code (o + head) (lap head (codes σ r increment) b)) (hfinds : Finding σ names)
    (hlegal : LoxMachine.Expression.OptionLegal (increment.map Expression.tree) σ)
    (hbody : ∀ q, Lies code q b → Performs code fuel body names names q (q + extent b) [] fun _ => []) :
    ∃ back i, Lies code back [i] ∧ (∀ s : Store, Acts i (s.desk back []) (.ok (s.desk o []))) ∧
      ∀ k ≤ fuel, ∀ (o' : Nat) (next : Eval Unit), Performs code k next names names back o' [] (fun _ => []) →
        Performs code k ((do body; increase increment) >>= fun _ => next) names names (o + head) o' []
          fun _ => [] := by
  cases increment with
  | none =>
    have hloop := (hat.right (a := [])).right
    refine ⟨_, _, hloop, fun s => ?_, fun k hk o' next hnext => ?_⟩
    · refine .loop (d := s.desk _ []) ?_
      simp only [Store.desk, codes, Option.map_none, turn, extent_nil]
      omega
    · refine .bind (.bind ((hbody _ (hat.right (a := [])).left).mono hk) fun _ => ?_) fun _ => hnext
      exact .done rfl rfl
  | some e =>
    simp only [codes, Option.map_some, lap, Symbolic.increment, turn, across] at hat
    have hinc := hat.left.tail
    have hbody' := hbody _ hat.right.left
    refine ⟨_, _, hinc.right.tail, fun s => ?_, fun k hk o' next hnext => ?_⟩
    · refine .loop (d := s.desk _ []) ?_
      simp only [Store.desk, Symbolic.Instruction.size]
      omega
    · have hsize : extent (.jump .jump (extent (e.tree.code σ r ++
          [.op .pop, .jump .loop (head + 3 + extent (e.tree.code σ r) + 1 + 3)])) :: (e.tree.code σ r ++
          [.op .pop, .jump .loop (head + 3 + extent (e.tree.code σ r) + 1 + 3)])) =
          3 + extent (e.tree.code σ r ++
          [.op .pop, .jump .loop (head + 3 + extent (e.tree.code σ r) + 1 + 3)]) := rfl
      refine .after_jump hat.left.head (.bind (.bind (hsize ▸ hbody'.mono hk) fun _ => ?_) fun _ => hnext)
      -- the end of the body goes back to the increment
      refine .after_step (p := o + head + 3) hat.right.right (fun s _ => .loop (d := s.desk _ []) ?_) ?_
      · simp only [Store.desk, extent_append, extent_cons, extent_nil, Symbolic.Instruction.size]
        omega
      · exact .bind (e.performs hfinds hlegal hinc.left) fun _ => .after_pop hinc.right.head (.done rfl rfl)

/-- **The code of a loop.** -/
theorem loop_performs (hat : Lies code o (loop (codes σ r condition) (codes σ r increment) b))
    (hfinds : Finding σ names) (hcondition : LoxMachine.Expression.OptionLegal (condition.map Expression.tree) σ)
    (hincrement : LoxMachine.Expression.OptionLegal (increment.map Expression.tree) σ)
    (hbody : ∀ q, Lies code q b → Performs code fuel body names names q (q + extent b) [] fun _ => []) :
    Performs code fuel (repeatWhile (holds condition) (do body; increase increment) fuel) names names o
      (o + extent (loop (codes σ r condition) (codes σ r increment) b)) [] fun _ => [] := by
  cases condition with
  | none =>
    obtain ⟨back, i, hback, hacts, hlap⟩ := lap_performs
      (show Lies code (o + 0) (lap 0 (codes σ r increment) b) from hat) hfinds hincrement hbody
    refine repeatWhile_performs hback hacts (fun k hk next hnext => ?_) le_rfl
    exact hlap k hk _ next hnext
  | some e =>
    simp only [codes, Option.map_some, loop, across] at hat ⊢
    have hjump := hat.right.left.head
    have hturn := hat.right.left.tail
    have hoffset : o + extent (e.tree.code σ r) + 3 + 1 = o + (extent (e.tree.code σ r) + 4) := by omega
    have hlaps : Lies code (o + (extent (e.tree.code σ r) + 4))
        (lap (extent (e.tree.code σ r) + 4) (codes σ r increment) b) := hoffset ▸ hturn.tail
    obtain ⟨back, i, hback, hacts, hlap⟩ := lap_performs hlaps hfinds hincrement hbody
    refine repeatWhile_performs hback hacts (fun k hk next hnext => ?_) le_rfl
    refine .bind (e.performs hfinds hcondition hat.left) fun d => .choice hjump (fun _ => ?_) fun _ => ?_
    · exact .after_pop hat.right.right (.done (by
        simp only [extent_append, extent_cons, extent_nil, Symbolic.Instruction.size]
        omega) rfl)
    · refine .after_pop hturn.head ?_
      rw [hoffset]
      exact hlap k hk _ next hnext

end Laps

/-! ## Declarations of variables -/

theorem finding_of_shows (h : σ.Shows names) : Finding σ names := fun _ hname _ => h.finds hname

theorem initial_performs {value : Option Expression} (h : Finding σ names)
    (hlegal : LoxMachine.Expression.OptionLegal (value.map Expression.tree) σ)
    (hat : Lies code o (valueCode (value.map Expression.tree) σ r)) :
    Performs code fuel (initial value) names names o (o + extent (valueCode (value.map Expression.tree) σ r)) results
      fun d => d :: results := by
  cases value with
  | none => exact literal_performs rfl hat
  | some e => exact e.performs h hlegal hat

/-- The value of a local variable stays on the stack. -/
theorem declareName_performs {inBlock : Bool} (hblock : inBlock = true ↔ σ.here.depth ≠ 0) (d : Datum)
    (hat : Lies code o (σ.defining name)) :
    Performs code fuel (declareName inBlock name d) names (if σ.here.depth = 0 then names else name :: names) o
      (o + extent (σ.defining name)) [d] fun _ => [] := by
  unfold Setting.defining at hat ⊢
  by_cases hdepth : σ.here.depth = 0
  · obtain rfl : inBlock = false := by simpa [hdepth] using hblock
    rw [if_pos hdepth] at hat
    rw [if_pos hdepth, if_pos hdepth]
    exact .single hat fun s hs => ⟨hs, .define rfl⟩
  · obtain rfl : inBlock = true := hblock.2 hdepth
    rw [if_neg hdepth, if_neg hdepth]
    exact fun s hs => ⟨congrArg (name :: ·) hs, 0, .refl _⟩

theorem variable_performs {name : Name} {value : Option Expression} {inBlock : Bool} (h : σ.Shows names)
    (hblock : inBlock = true ↔ σ.here.depth ≠ 0)
    (hlegal : VariableLegal name.text (value.map Expression.tree) σ)
    (hat : Lies code o (variableCode name.text (value.map Expression.tree) σ r)) :
    Performs code fuel (do declareName inBlock name.text (← initial value)) names
      (if σ.here.depth = 0 then names else name.text :: names) o
      (o + extent (variableCode name.text (value.map Expression.tree) σ r)) [] fun _ => [] := by
  simp only [variableCode, extent_append, ← Nat.add_assoc] at hat ⊢
  exact .bind (initial_performs (fun _ hname => h.finds_initializing hname) hlegal.2 hat.left)
    fun d => declareName_performs hblock d hat.right

/-- Before the first semicolon of a loop. -/
theorem Initializer.performs (init : Initializer) (h : σ.Shows names) (hdepth : σ.here.depth ≠ 0)
    (hlegal : init.tree.Legal σ) (hat : Lies code o (init.tree.code σ r)) :
    ∃ added, (init.tree.after σ).Shows (added ++ names) ∧ Performs code fuel init.exec names (added ++ names) o
      (o + extent (init.tree.code σ r)) [] fun _ => [] := by
  cases init with
  | none => exact ⟨[], h, .done rfl rfl⟩
  | var name value =>
    have hdefine := h.define name.text
    have hperforms : Performs code fuel _ _ _ _ _ _ _ := variable_performs h (iff_of_true rfl hdepth) hlegal hat
    rw [if_neg hdepth] at hdefine hperforms
    exact ⟨[name.text], hdefine, hperforms⟩
  | expression e =>
    simp only [tree, LoxMachine.Initializer.code, extent_append, ← Nat.add_assoc] at hat ⊢
    exact ⟨[], h, .bind (e.performs (finding_of_shows h) hlegal hat.left) fun _ => .after_pop hat.right (.done rfl rfl)⟩

/-! ## Statements -/

theorem Declaration.depth_after (d : Declaration) (σ : Setting) : (d.tree.after σ).here.depth = σ.here.depth := by
  cases d with
  | statement s => rfl
  | var name value => exact Setting.depth_define σ name.text

mutual

/-- **The code of a statement does what evaluating it comes to.** -/
theorem Statement.performs (n : Nat) : ∀ (s : Statement) {σ : Setting} {r : Receivers} {names : List String}
    {o : Nat}, σ.Shows names → s.tree.Legal σ → Lies code o (s.tree.code σ r) →
      Performs code n (s.exec n) names names o (o + extent (s.tree.code σ r)) [] fun _ => []
  | .expression e, σ, r, names, o, h, hlegal, hat => by
    simp only [Statement.tree, LoxMachine.Statement.code, extent_append, ← Nat.add_assoc] at hat ⊢
    exact .bind (e.performs (finding_of_shows h) hlegal hat.left) fun _ => .after_pop hat.right (.done rfl rfl)
  | .print e, σ, r, names, o, h, hlegal, hat => by
    simp only [Statement.tree, LoxMachine.Statement.code, extent_append, ← Nat.add_assoc] at hat ⊢
    exact .bind (e.performs (finding_of_shows h) hlegal hat.left) fun d =>
      .single hat.right fun s hs => ⟨hs, .print rfl⟩
  | .block body, σ, r, names, o, h, hlegal, hat => by
    simp only [Statement.tree, LoxMachine.Statement.code, extent_append, ← Nat.add_assoc,
      Declaration.listUses_eq_nil body (σ := σ.enter) h.outer, leave_eq] at hat ⊢
    obtain ⟨added, hafter, hbody⟩ := Declaration.list_performs n body h.enter
      (iff_of_true rfl (Nat.succ_ne_zero _)) hlegal hat.left
    have hcount : (LoxMachine.Declaration.afterList (Declaration.trees body) σ.enter).here.locals.length -
        σ.here.locals.length = added.length := by
      rw [hafter.length, h.length, List.length_append]
      omega
    rw [hcount] at hat ⊢
    exact .congr (inScope_performs hbody hat.right) rfl (by rw [extent_pops])
  | .ifThen condition body, σ, r, names, o, h, hlegal, hat => by
    simp only [Statement.tree, LoxMachine.Statement.code, extent_append, ← Nat.add_assoc] at hat ⊢
    exact .bind (condition.performs (finding_of_shows h) hlegal.1 hat.left) fun _ => .branch hat.right
      (fun hpop => .popping hpop fun _ => .done rfl rfl) fun hp => .popping hp fun hbody =>
        body.performs n h hlegal.2.1 hbody
  | .ifThenElse condition body otherwise, σ, r, names, o, h, hlegal, hat => by
    simp only [Statement.tree, LoxMachine.Statement.code, extent_append, ← Nat.add_assoc] at hat ⊢
    exact .bind (condition.performs (finding_of_shows h) hlegal.1 hat.left) fun _ => .branch hat.right
      (fun hq => .popping hq fun hother => otherwise.performs n h hlegal.2.2.2.1 hother)
      fun hp => .popping hp fun hbody => body.performs n h hlegal.2.1 hbody
  | .whileLoop condition body, σ, r, names, o, h, hlegal, hat => by
    have hcode : Lies code o (loop (codes σ r (some condition)) (codes σ r none) (body.tree.code σ r)) := hat
    have hloop := loop_performs hcode (finding_of_shows h) hlegal.1 trivial fun q hbody =>
      body.performs n h hlegal.2.1 hbody
    exact .congr hloop (congrArg (repeatWhile condition.eval · n) (bind_pure_unit)) rfl
  | .forLoop init condition increment body, σ, r, names, o, h, hlegal, hat => by
    obtain ⟨hinit, hcondition, hincrement, hbody', -⟩ := hlegal
    have houter := init.outer_after (σ := σ.enter) h.outer
    simp only [Statement.tree, LoxMachine.Statement.code, extent_append, ← Nat.add_assoc,
      init.uses_eq_nil (σ := σ.enter) h.outer, option_captured condition houter, option_captured increment houter,
      body.uses_eq_nil houter, List.append_nil, leave_eq] at hat ⊢
    obtain ⟨added, hafter, hinit⟩ := @Initializer.performs _ _ _ _ n _ init h.enter (Nat.succ_ne_zero _) hinit hat.left
    have hcount : (init.tree.after σ.enter).here.locals.length - σ.here.locals.length = added.length := by
      rw [hafter.length, h.length, List.length_append]
      omega
    rw [hcount] at hat ⊢
    refine .congr (inScope_performs (.bind hinit fun _ => loop_performs hat.right.left (finding_of_shows hafter)
      hcondition hincrement fun q hbody => body.performs n hafter hbody' hbody) hat.right.right) rfl ?_
    rw [extent_pops]
    rfl

/-- **The code of a declaration does what evaluating it comes to.** -/
theorem Declaration.performs (n : Nat) : ∀ (d : Declaration) {σ : Setting} {r : Receivers} {names : List String}
    {o : Nat} {inBlock : Bool}, σ.Shows names → (inBlock = true ↔ σ.here.depth ≠ 0) → d.tree.Legal σ →
      Lies code o (d.tree.code σ r) → ∃ added, (d.tree.after σ).Shows (added ++ names) ∧
        Performs code n (d.exec n inBlock) names (added ++ names) o (o + extent (d.tree.code σ r)) [] fun _ => []
  | .statement s, σ, r, names, o, inBlock, h, _, hlegal, hat => ⟨[], h, s.performs n h hlegal hat⟩
  | .var name value, σ, r, names, o, inBlock, h, hblock, hlegal, hat => by
    have hdefine := h.define name.text
    have hperforms : Performs code n _ _ _ _ _ _ _ := variable_performs h hblock hlegal hat
    by_cases hdepth : σ.here.depth = 0
    · rw [if_pos hdepth] at hdefine hperforms
      exact ⟨[], hdefine, hperforms⟩
    · rw [if_neg hdepth] at hdefine hperforms
      exact ⟨[name.text], hdefine, hperforms⟩

theorem Declaration.list_performs (n : Nat) : ∀ (body : List Declaration) {σ : Setting} {r : Receivers}
    {names : List String} {o : Nat} {inBlock : Bool}, σ.Shows names → (inBlock = true ↔ σ.here.depth ≠ 0) →
      LoxMachine.Declaration.ListLegal (Declaration.trees body) σ →
      Lies code o (LoxMachine.Declaration.listCode (Declaration.trees body) σ r) →
      ∃ added, (LoxMachine.Declaration.afterList (Declaration.trees body) σ).Shows (added ++ names) ∧
        Performs code n (Declaration.execList n inBlock body) names (added ++ names) o
          (o + extent (LoxMachine.Declaration.listCode (Declaration.trees body) σ r)) [] fun _ => []
  | [], σ, r, names, o, inBlock, h, _, _, _ => ⟨[], h, .done rfl rfl⟩
  | d :: more, σ, r, names, o, inBlock, h, hblock, hlegal, hat => by
    simp only [Declaration.trees, LoxMachine.Declaration.listCode, extent_append, ← Nat.add_assoc] at hat ⊢
    obtain ⟨added, hafter, hd⟩ := d.performs n h hblock hlegal.1 hat.left
    obtain ⟨added', hafter', hmore⟩ := Declaration.list_performs n more hafter
      (by rw [d.depth_after]; exact hblock) hlegal.2 hat.right
    rw [← List.append_assoc] at hafter' hmore
    exact ⟨added' ++ added, hafter', .bind hd fun _ => hmore⟩

end

end Plain

end LoxMachine
