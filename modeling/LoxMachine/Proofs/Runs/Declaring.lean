import LoxMachine.Proofs.Runs.Passages
import LoxMachine.Proofs.Symbolic.Charting

/-!
# Classes that a run has declared

* `Machine.Lives m₀ c k n`: the class `c` has been there all the time from one step to another.
* `Passage.Declares`: the run has gone through a class declaration, with the closures that it has made for the methods.
* `Machine.Declared m₀ Q W K n c methods`: before the step `n`, the run had gone through the declaration of `c`, and
  `methods` are those that were written in it, and else those of the class that it inherited from.
* `Passage.Spot`: where in a class declaration the run is, and `Spot.step`: it goes on to the next spot.
-/

namespace LoxMachine

open Symbolic

variable {Q : FunctionKind → Nat → Code → Prop} {W : Machine → Closure → Sheet → Prop}
  {K : ClassDeclaration → Prop} {m₀ m m' : Machine} {done : Bool} {p : Passage} {k n : Nat} {c : Handle}
  {above : List Value} {made : List (String × Handle)} {inherited methods : Methods}

namespace Machine

/-- A step more. -/
theorem run_succ {n : Nat} (hrun : m₀.run n = .running m) (hm : m.step = .ok false m') :
    m₀.run (n + 1) = .running m' := by
  induction n generalizing m₀ with
  | zero =>
    cases hrun
    rw [run, hm]
    rfl
  | succ n ih =>
    rw [run] at hrun
    split at hrun
    · cases hrun
    · rename_i hstep
      rw [run, hstep]
      exact ih hrun
    · cases hrun

/-- The class has been there all the time. -/
def Lives (m₀ : Machine) (c : Handle) (k n : Nat) : Prop :=
  ∀ j, k ≤ j → j ≤ n → (m₀.run j).machine.heap.kind? c = some .cls

/-- The class has had the methods all the time. -/
def Has (m₀ : Machine) (c : Handle) (methods : Methods) (k n : Nat) : Prop :=
  ∀ j, k ≤ j → j ≤ n → (m₀.run j).machine.heap.HasMethods c methods

theorem Has.at {j : Nat} (h : m₀.Has c methods k n) (hk : k ≤ j) (hn : j ≤ n) (hrun : m₀.run j = .running m) :
    m.heap.HasMethods c methods := by
  have hhas := h j hk hn
  rwa [hrun] at hhas

theorem Has.lives (h : m₀.Has c methods k n) : m₀.Lives c k n := fun j hk hn => (h j hk hn).kind?

end Machine

/-- The methods of a class for which closures have been made, the last one first. Others are inherited. -/
def Methods.overriding (made : List (String × Handle)) (inherited : Methods) : Methods :=
  fun name => (made.lookup name).or (inherited name)

@[simp] theorem Methods.overriding_nil (inherited : Methods) : overriding [] inherited = inherited := rfl

theorem Methods.overriding_cons (name : String) (f : Handle) (made : List (String × Handle)) (inherited : Methods) :
    overriding ((name, f) :: made) inherited = Function.update (overriding made inherited) name (some f) := by
  funext name'
  rw [Function.update_apply, overriding, List.lookup_cons]
  by_cases h : name' = name
  · simp [h]
  · rw [if_neg h, beq_false_of_ne h]
    rfl

/-! ## What a run declares -/

namespace Passage

/-- The step after the declaration. -/
def finish (p : Passage) : Nat := p.start + p.code.length

/-- The end of the declaration, where there are some methods left. -/
def ending (p : Passage) (remaining : List Routine) : Code :=
  p.declaration.methodsCode p.setting p.receivers remaining

/-- Before the step `n`, the run is at the code `todo` of the declaration. -/
structure At (m₀ : Machine) (Q : FunctionKind → Nat → Code → Prop) (W : Machine → Closure → Sheet → Prop)
    (p : Passage) (n : Nat) (m : Machine) (todo : Code) : Prop where
  run : m₀.run n = .running m
  index : n + todo.length = p.finish
  faces : ∃ ip, ip + extent todo = p.frame.ip + extent p.code ∧
    m₀.Faces Q W m { p.frame with ip } p.rest p.closure p.sheet (todo ++ p.more)

/-- The closures that have been made for methods, the last one first, and the methods that are left. -/
inductive Makes (m₀ : Machine) (Q : FunctionKind → Nat → Code → Prop) (W : Machine → Closure → Sheet → Prop)
    (p : Passage) : List (String × Handle) → List Routine → Prop
  | nil : Makes m₀ Q W p [] p.declaration.methods
  | cons {made : List (String × Handle)} {r : Routine} {remaining : List Routine} {n : Nat} {m : Machine} {f : Handle}
      {new : Closure} {kind : FunctionKind} {name : String} {arity : Nat} {captured : List (Nat × Nat)} {body : Code}
      (before : Makes m₀ Q W p made (r :: remaining)) (here : p.At m₀ Q W n m (.named .method r.name :: p.ending remaining))
      (top : m.stack.back? = some (.obj f)) (closure : m.heap.closure f = .ok new)
      (code : r.code (methodKind r.name) (p.declaration.inner p.setting) p.receivers =
        .closure kind name arity captured body)
      (wears : m₀.Wears Q new ⟨kind, some name, arity, captured, p.sheet.level + 1, body⟩) :
      Makes m₀ Q W p ((r.name, f) :: made) remaining

/-- The class inherits from `S`. -/
def Inherits (m₀ : Machine) (Q : FunctionKind → Nat → Code → Prop) (W : Machine → Closure → Sheet → Prop)
    (p : Passage) (S : Handle) : Prop :=
  ∃ n m, p.At m₀ Q W n m (.op .inherit :: .get p.self :: p.ending p.declaration.methods) ∧
    m.stack[m.stack.size - 2]? = some (.obj S)

/-- **The run has gone through the declaration.** -/
structure Declares (m₀ : Machine) (Q : FunctionKind → Nat → Code → Prop) (W : Machine → Closure → Sheet → Prop)
    (K : ClassDeclaration → Prop) (p : Passage) (made : List (String × Handle)) : Prop where
  known : K p.declaration
  begins : p.Begins m₀ Q W
  methods : p.Makes m₀ Q W made []
  ends : ∃ m, p.At m₀ Q W p.finish m []

end Passage

namespace Machine

/-- **The classes that a run has declared**, with the methods that a lookup along the superclasses finds. -/
inductive Declared (m₀ : Machine) (Q : FunctionKind → Nat → Code → Prop) (W : Machine → Closure → Sheet → Prop)
    (K : ClassDeclaration → Prop) : Nat → Handle → Methods → Prop
  | base {p : Passage} {made : List (String × Handle)} (declares : p.Declares m₀ Q W K made)
      (lone : p.declaration.superclass = .none) :
      Declared m₀ Q W K p.finish p.cls (.overriding made fun _ => none)
  | derived {p : Passage} {made : List (String × Handle)} {superclass : String} {S : Handle} {k : Nat}
      {inherited : Methods} (declares : p.Declares m₀ Q W K made) (sub : p.declaration.superclass = .some superclass)
      (inherits : p.Inherits m₀ Q W S) (earlier : k ≤ p.start) (declared : Declared m₀ Q W K k S inherited)
      (lives : m₀.Lives S k p.start) : Declared m₀ Q W K p.finish p.cls (.overriding made inherited)

/-- Before the step `n`, the class `c` has been declared, and it has its methods since then. -/
def Answers (m₀ : Machine) (Q : FunctionKind → Nat → Code → Prop) (W : Machine → Closure → Sheet → Prop)
    (K : ClassDeclaration → Prop) (n : Nat) (c : Handle) : Prop :=
  ∃ k ≤ n, ∃ methods, m₀.Declared Q W K k c methods ∧ m₀.Has c methods k n

end Machine

/-! ## Through a declaration -/

/-- An instruction of a class declaration, after the first one. The declaration has put `height` values on the stack. -/
structure Symbolic.Instruction.Inside (i : Symbolic.Instruction) (height : Nat) : Prop where
  formed : i.Formed
  classes : i.opcode ≠ .cls
  goes : i.opcode ≠ .ret
  enough : i.opcode.needs i.count ≤ height

/-- The closure on top of the stack is one of a function of the kind. -/
def Machine.Holds (m₀ : Machine) (Q : FunctionKind → Nat → Code → Prop) (m : Machine) (kind : FunctionKind) : Prop :=
  ∃ f c s, m.stack.back? = some (.obj f) ∧ m.heap.closure f = .ok c ∧ m₀.Wears Q c s ∧ s.kind = kind

namespace Passage

/-- The value of the superclass, and the methods that have been inherited. -/
inductive Above (m₀ : Machine) (Q : FunctionKind → Nat → Code → Prop) (W : Machine → Closure → Sheet → Prop)
    (K : ClassDeclaration → Prop) (p : Passage) : List Value → Methods → Prop
  | none (lone : p.declaration.superclass = .none) : Above m₀ Q W K p [] fun _ => none
  | some {superclass : String} {S : Handle} {k : Nat} {inherited : Methods}
      (sub : p.declaration.superclass = .some superclass) (inherits : p.Inherits m₀ Q W S) (earlier : k ≤ p.start)
      (declared : m₀.Declared Q W K k S inherited) (lives : m₀.Lives S k p.start) : Above m₀ Q W K p [.obj S] inherited

/-- Where the run is. -/
inductive Spot (m₀ : Machine) (Q : FunctionKind → Nat → Code → Prop) (W : Machine → Closure → Sheet → Prop)
    (K : ClassDeclaration → Prop) (p : Passage) (n : Nat) (m : Machine) : Prop
  | made {todo : Code} (todo_eq : todo = p.declaration.superCode p.setting ++
        (.get p.self :: p.ending p.declaration.methods))
      (index : n + (todo.length + 1) = p.finish) (depth : p.setting.here.depth = 0)
      (new : ∃ o, p.before.heap.Allocates p.before.roots o p.cls m.heap)
      (amid : p.Amid m₀ Q W K m (.named .defineGlobal p.declaration.name :: todo) [.obj p.cls]
        p.before.globals.toMap fun _ => none)
  | named {superclass : String} {todo : Code}
      (todo_eq : todo = .get p.self :: .op .inherit :: .get p.self :: p.ending p.declaration.methods)
      (index : n + (todo.length + 1) = p.finish) (sub : p.declaration.superclass = .some superclass)
      (new : ∃ o, p.before.heap.Allocates p.before.roots o p.cls m.heap)
      (amid : p.Amid m₀ Q W K m (.get ((p.setting.define p.declaration.name).variable superclass) :: todo)
        p.home p.bindings fun _ => none)
  | fetched {superclass : String} {todo : Code} {x : Value}
      (todo_eq : todo = .op .inherit :: .get p.self :: p.ending p.declaration.methods)
      (index : n + (todo.length + 1) = p.finish) (sub : p.declaration.superclass = .some superclass)
      (other : x ≠ .obj p.cls)
      (amid : p.Amid m₀ Q W K m (.get p.self :: todo) (p.home ++ [x]) p.bindings fun _ => none)
  | paired {superclass : String} {todo : Code} {x : Value}
      (todo_eq : todo = .get p.self :: p.ending p.declaration.methods)
      (index : n + (todo.length + 1) = p.finish) (sub : p.declaration.superclass = .some superclass)
      (other : x ≠ .obj p.cls)
      (amid : p.Amid m₀ Q W K m (.op .inherit :: todo) (p.home ++ [x, .obj p.cls]) p.bindings fun _ => none)
  | ready {above : List Value} {inherited : Methods}
      (index : n + ((p.ending p.declaration.methods).length + 1) = p.finish)
      (super : p.Above m₀ Q W K above inherited)
      (amid : p.Amid m₀ Q W K m (.get p.self :: p.ending p.declaration.methods) (p.home ++ above) p.bindings inherited)
  | filling {above : List Value} {inherited : Methods} {made : List (String × Handle)} {remaining : List Routine}
      (index : n + (p.ending remaining).length = p.finish) (super : p.Above m₀ Q W K above inherited)
      (makes : p.Makes m₀ Q W made remaining)
      (amid : p.Amid m₀ Q W K m (p.ending remaining) (p.home ++ (above ++ [.obj p.cls])) p.bindings
        (.overriding made inherited))
  | holding {above : List Value} {inherited : Methods} {made : List (String × Handle)} {r : Routine}
      {remaining : List Routine} {f : Handle}
      (index : n + ((p.ending remaining).length + 1) = p.finish) (super : p.Above m₀ Q W K above inherited)
      (makes : p.Makes m₀ Q W ((r.name, f) :: made) remaining) (closure : m.heap.kind? f = some .closure)
      (amid : p.Amid m₀ Q W K m (.named .method r.name :: p.ending remaining)
        (p.home ++ (above ++ [.obj p.cls, .obj f])) p.bindings (.overriding made inherited))

/-- The run is through. -/
structure Through (m₀ : Machine) (Q : FunctionKind → Nat → Code → Prop) (W : Machine → Closure → Sheet → Prop)
    (K : ClassDeclaration → Prop) (p : Passage) (n : Nat) (m : Machine) (above : List Value)
    (made : List (String × Handle)) (inherited : Methods) : Prop where
  index : n = p.finish
  super : p.Above m₀ Q W K above inherited
  makes : p.Makes m₀ Q W made []
  amid : p.Amid m₀ Q W K m [] (p.home ++ above) p.bindings (.overriding made inherited)

/-- A class has been declared. -/
theorem Through.declared (h : p.Through m₀ Q W K n m above made inherited) (hknown : K p.declaration)
    (hp : p.Begins m₀ Q W) (hrun : m₀.run n = .running m) :
    m₀.Declared Q W K p.finish p.cls (.overriding made inherited) := by
  have hdeclares : p.Declares m₀ Q W K made :=
    ⟨hknown, hp, h.makes, m, h.index ▸ hrun, rfl, h.amid.faces⟩
  cases h.super with
  | none lone => exact .base hdeclares lone
  | some sub inherits earlier declared lives => exact .derived hdeclares sub inherits earlier declared lives

/-- The slots that a class declaration takes. -/
theorem length_inner (d : ClassDeclaration) (σ : Setting) : (d.inner σ).here.locals.length =
    σ.here.locals.length + (if σ.here.depth = 0 then 0 else 1) + (if d.superclass = none then 0 else 1) := by
  have hdefine := Setting.length_define σ d.name
  unfold ClassDeclaration.inner methodsSetting
  cases d.superclass with
  | none =>
    change (σ.define d.name).here.locals.length = _
    rw [hdefine]
    split <;> rfl
  | some s =>
    change ((σ.define d.name).enter.define "super").here.locals.length = _
    rw [Setting.length_define, if_neg (show (σ.define d.name).enter.here.depth ≠ 0 from Nat.succ_ne_zero _)]
    change (σ.define d.name).here.locals.length + 1 = _
    rw [hdefine]
    split <;> rfl

/-- The calls are at points of charts again. -/
theorem Through.stands {J : Chart} (h : p.Through m₀ Q W K n m above made inherited) (hp : p.Begins m₀ Q W)
    (hguides : p.sheet.Guides K J)
    (hnext : J (p.frame.ip + extent p.code) (p.declaration.inner p.setting).here.locals.length) :
    m₀.Stands Q W K m m.frames m.stack.size := by
  obtain ⟨ip, hip, hat⟩ := h.amid.faces
  have hsize := hp.tracks.stable.base_le_size hp.faces.frames
  have hstack : m.stack.size = p.before.stack.size + (p.home.length + above.length) := by
    rw [← Array.length_toList, h.amid.stack, List.length_append, List.length_append, Array.length_toList]
  have hhome : p.home.length = if p.setting.here.depth = 0 then 0 else 1 := by
    unfold Passage.home
    split <;> rfl
  have habove : above.length = if p.declaration.superclass = none then 0 else 1 := by
    cases h.super with
    | none lone => rw [if_pos lone]; rfl
    | some sub => rw [sub]; rfl
  rw [hat.frames]
  refine .cons hat.closure hat.wears hat.holds hguides ?_ h.amid.below
  rw [length_inner, hp.fits.height, ← hhome, ← habove] at hnext
  rw [extent_nil, Nat.add_zero] at hip
  change J ip (m.stack.size - p.frame.base)
  rw [hip, hstack]
  convert hnext using 1
  omega

/-- The class has its variable. -/
theorem Spot.named_or_ready (ho : ∃ o, p.before.heap.Allocates p.before.roots o p.cls m.heap)
    (hindex : n + (p.declaration.superCode p.setting ++ (.get p.self :: p.ending p.declaration.methods)).length =
      p.finish)
    (h : p.Amid m₀ Q W K m (p.declaration.superCode p.setting ++ (.get p.self :: p.ending p.declaration.methods))
      p.home p.bindings fun _ => none) : p.Spot m₀ Q W K n m := by
  cases hsuper : p.declaration.superclass with
  | none =>
    rw [ClassDeclaration.superCode, hsuper] at h hindex
    exact .ready hindex (.none hsuper) (by rwa [List.append_nil])
  | some superclass =>
    rw [ClassDeclaration.superCode, hsuper] at h hindex
    exact .named rfl hindex hsuper ho h

/-- A method is next, or the end. -/
theorem ending_cons (p : Passage) (r : Routine) (remaining : List Routine) :
    p.ending (r :: remaining) = r.code (methodKind r.name) (p.declaration.inner p.setting) p.receivers ::
      .named .method r.name :: p.ending remaining := by
  cases r with
  | mk name parameters body => rfl

theorem code_closure (r : Routine) (kind : FunctionKind) (σ : Setting) (receivers : Receivers) :
    ∃ kind' name arity captured body, r.code kind σ receivers = .closure kind' name arity captured body := by
  cases r with
  | mk name parameters body => exact ⟨_, _, _, _, _, rfl⟩

/-- The closure that has been made last is one of a method of its name. -/
theorem Makes.last {made' : List (String × Handle)} {remaining : List Routine} {name : String} {f : Handle}
    (h : p.Makes m₀ Q W made' remaining) (hmade : made' = (name, f) :: made) : ∃ n m new s,
      p.At m₀ Q W n m (.named .method name :: p.ending remaining) ∧ m.stack.back? = some (.obj f) ∧
        m.heap.closure f = .ok new ∧ m₀.Wears Q new s ∧ s.kind = methodKind name := by
  cases h with
  | nil => cases hmade
  | @cons _ r _ n m _ new kind text arity captured body before here top closure code wears =>
    cases hmade
    refine ⟨n, m, new, _, here, top, closure, wears, ?_⟩
    obtain ⟨name, parameters, body⟩ := r
    cases code
    rfl

/-- **What is next** is an instruction of a class declaration, after the first one. A method that is written is the
closure of one of that name. -/
theorem Spot.next (hrun : m₀.run n = .running m) (h : p.Spot m₀ Q W K n m) : ∃ i todo extra values methods,
    p.Amid m₀ Q W K m (i :: todo) extra values methods ∧ i.Inside extra.length ∧
      ∀ name, i = .named .method name → m₀.Holds Q m (methodKind name) := by
  have hget : ∀ (v : Variable) (height : Nat), (Symbolic.Instruction.get v).Inside height := fun v height => by
    cases v <;> exact ⟨trivial, by rintro ⟨⟩, by rintro ⟨⟩, Nat.zero_le _⟩
  have hother : ∀ {i : Symbolic.Instruction}, i.opcode ≠ .method → ∀ name, i = .named .method name →
      m₀.Holds Q m (methodKind name) := fun hop name hname => absurd (congrArg Symbolic.Instruction.opcode hname) hop
  have hgot : ∀ v : Variable, (Symbolic.Instruction.get v).opcode ≠ .method := fun v => by cases v <;> rintro ⟨⟩
  cases h with
  | made todo_eq index depth new amid => exact ⟨_, _, _, _, _, amid, ⟨rfl, by rintro ⟨⟩, by rintro ⟨⟩, le_rfl⟩, hother (by rintro ⟨⟩)⟩
  | named todo_eq index sub new amid => exact ⟨_, _, _, _, _, amid, hget _ _, hother (hgot _)⟩
  | fetched todo_eq index sub other amid => exact ⟨_, _, _, _, _, amid, hget _ _, hother (hgot _)⟩
  | paired todo_eq index sub other amid =>
    refine ⟨_, _, _, _, _, amid, ⟨rfl, by rintro ⟨⟩, by rintro ⟨⟩, ?_⟩, hother (by rintro ⟨⟩)⟩
    simp [Symbolic.Instruction.opcode, Opcode.needs]
  | ready index super amid => exact ⟨_, _, _, _, _, amid, hget _ _, hother (hgot _)⟩
  | @filling above inherited made remaining index super makes amid =>
    cases remaining with
    | nil =>
      refine ⟨_, _, _, _, _, amid, ⟨rfl, by rintro ⟨⟩, by rintro ⟨⟩, ?_⟩, hother (by rintro ⟨⟩)⟩
      simp [Symbolic.Instruction.opcode, Opcode.needs, Opcode.pops]
      omega
    | cons r remaining =>
      obtain ⟨kind, name, arity, captured, body, hcode⟩ :=
        code_closure r (methodKind r.name) (p.declaration.inner p.setting) p.receivers
      rw [ending_cons, hcode] at amid
      exact ⟨_, _, _, _, _, amid, ⟨trivial, by rintro ⟨⟩, by rintro ⟨⟩, Nat.zero_le _⟩, hother (by rintro ⟨⟩)⟩
  | @holding above inherited made r remaining f index super makes closure amid =>
    refine ⟨_, _, _, _, _, amid, ⟨rfl, by rintro ⟨⟩, by rintro ⟨⟩, ?_⟩, fun name hname => ?_⟩
    · simp [Symbolic.Instruction.opcode, Opcode.needs]
      omega
    · cases hname
      obtain ⟨j, m'', new, s, here, top, closure, wears, hkind⟩ := makes.last rfl
      have hj : j = n := by
        have hindex := here.index
        rw [List.length_cons] at hindex
        omega
      subst hj
      cases here.run.symm.trans hrun
      exact ⟨f, new, s, top, closure, wears, hkind⟩

theorem Spot.lt_finish (h : p.Spot m₀ Q W K n m) : n < p.finish := by
  cases h with
  | made todo_eq index | named todo_eq index | fetched todo_eq index | paired todo_eq index | ready index
  | holding index => omega
  | filling index =>
    simp only [ending, ClassDeclaration.methodsCode, List.length_append, List.length_singleton] at index
    omega

/-- **The run goes on through the declaration.** -/
theorem Spot.step (hQ : Inward Q) (hp : p.Begins m₀ Q W)
    (hsettled : ∀ S, p.before.heap.kind? S = some .cls → m₀.Answers Q W K p.start S)
    (hrun : m₀.run n = .running m) (h : p.Spot m₀ Q W K n m) (hm : m.step = .ok done m')
    (hkept : m₀.Kept Q W m m') : done = false ∧ (p.Spot m₀ Q W K (n + 1) m' ∨
      ∃ above made inherited, p.Through m₀ Q W K (n + 1) m' above made inherited) := by
  cases h with
  | made todo_eq index depth new amid =>
    subst todo_eq
    obtain ⟨rfl, amid', hcells⟩ := amid.defines hQ hp depth hm hkept
    obtain ⟨o, new⟩ := new
    exact ⟨rfl, .inl (.named_or_ready ⟨o, new.to_cells hcells amid'.tracks.orderly.sane.heap.tidy⟩ (by omega) amid')⟩
  | named todo_eq index sub new amid =>
    obtain ⟨o, new⟩ := new
    obtain ⟨rfl, x, hx, amid'⟩ := amid.getsSuper hQ hp new sub hm hkept
    subst todo_eq
    exact ⟨rfl, .inl (.fetched rfl (by simp only [List.length_cons] at index ⊢; omega) sub hx amid')⟩
  | fetched todo_eq index sub other amid =>
    subst todo_eq
    obtain ⟨rfl, amid'⟩ := amid.getsSelf hQ hp hm hkept
    exact ⟨rfl, .inl (.paired rfl (by simp only [List.length_cons] at index ⊢; omega) sub other amid')⟩
  | @paired superclass _ x todo_eq index sub other amid =>
    subst todo_eq
    obtain ⟨rfl, S, rfl, hS, hnext⟩ := amid.inherits hQ other hm hkept
    obtain ⟨o, bytes, hcell, hkind⟩ := Heap.cell?_of_kind? hS
    have hne : S ≠ p.cls := fun h => other (h ▸ rfl)
    have hold := amid.retains.cells (.inr ⟨hkind, hne⟩) hcell
    obtain ⟨k, hk, methods, hdeclared, hhas⟩ := hsettled S ((Heap.kind?_of_cell? hold).trans (hkind ▸ rfl))
    have hhere := (hhas.at hk le_rfl hp.run).retained amid.retains hS (.inr ⟨rfl, hne⟩) (.inl rfl) (.inr rfl)
    have hinherits : p.Inherits m₀ Q W S := ⟨n, m, ⟨hrun, index, amid.faces⟩, amid.top_two.1⟩
    exact ⟨rfl, .inl (.ready (by simp only [List.length_cons] at index ⊢; omega)
      (.some sub hinherits hk hdeclared hhas.lives) (hnext methods hhere))⟩
  | ready index super amid =>
    obtain ⟨rfl, amid'⟩ := amid.getsSelf hQ hp hm hkept
    exact ⟨rfl, .inl (.filling (by omega) super .nil (by rwa [Methods.overriding_nil]))⟩
  | @filling above inherited made remaining index super makes amid =>
    cases remaining with
    | nil =>
      obtain ⟨rfl, amid'⟩ := (show p.Amid m₀ Q W K m [.op .pop] ((p.home ++ above) ++ [.obj p.cls]) p.bindings _ by
        rwa [List.append_assoc]).drops hQ hm hkept
      exact ⟨rfl, .inr ⟨above, made, inherited, index, super, makes, amid'⟩⟩
    | cons r remaining =>
      rw [ending_cons] at amid index
      obtain ⟨kind, name, arity, captured, body, hcode⟩ :=
        code_closure r (methodKind r.name) (p.declaration.inner p.setting) p.receivers
      rw [hcode, ← List.append_assoc] at amid
      obtain ⟨rfl, f, new, amid', hnew, hwears⟩ := amid.makesClosure hQ hm hkept
      rw [List.append_assoc] at amid'
      have hindex : n + 1 + ((p.ending remaining).length + 1) = p.finish := by
        simp only [List.length_cons] at index
        omega
      obtain ⟨bytes, hcell⟩ := Heap.closure_eq_ok_iff.1 hnew
      rw [← List.append_assoc] at amid'
      exact ⟨rfl, .inl (.holding hindex super (.cons makes ⟨Machine.run_succ hrun hm, hindex, amid'.faces⟩
        amid'.top_two.2.1 hnew hcode hwears) (Heap.kind?_of_cell? hcell) (by rwa [List.append_assoc] at amid'))⟩
  | holding index super makes closure amid =>
    rw [← List.append_assoc] at amid
    obtain ⟨rfl, amid'⟩ := amid.makesMethod hQ closure hm hkept
    rw [List.append_assoc, ← Methods.overriding_cons] at amid'
    exact ⟨rfl, .inl (.filling (by omega) super makes amid')⟩

end Passage

end LoxMachine
