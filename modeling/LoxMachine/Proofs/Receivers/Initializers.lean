import LoxMachine.Proofs.Receivers.Sparing
import LoxMachine.Proofs.Runs.Inheritance

/-!
# The initializers of classes

* `Machine.Initializes m₀ Q m v`: the value is a closure of an initializer.
* `Machine.Suits m₀ Q m`: every method that a class has for the name of initializers is such a closure.
* `Suits.step`: every step of a run keeps it so.
-/

namespace LoxMachine

open Symbolic

variable {Q : FunctionKind → Nat → Code → Prop} {W : Machine → Closure → Sheet → Prop} {K : ClassDeclaration → Prop}
  {m₀ m m' ref : Machine} {n r : Nat} {under : Option Handle} {v : Value} {x : Handle} {C : Class}
  {P : Handle → ObjectKind → Prop} {R : ObjectKind → Prop}

namespace Machine

/-- The value is a closure of an initializer. -/
def Initializes (m₀ : Machine) (Q : FunctionKind → Nat → Code → Prop) (m : Machine) (v : Value) : Prop :=
  ∃ f c s, v = .obj f ∧ m.heap.closure f = .ok c ∧ m₀.Wears Q c s ∧ s.kind = .initializer

/-- All other objects than `x`, which is not a closure, are as they were. -/
theorem Initializes.kept (h : m₀.Initializes Q m v) (hx : m.heap.kind? x = some .cls)
    (hothers : ∀ y ≠ x, m'.heap.cell? y = m.heap.cell? y) : m₀.Initializes Q m' v := by
  obtain ⟨f, c, s, rfl, hc, hwears, hkind⟩ := h
  refine ⟨f, c, s, rfl, (Heap.closure_congr (hothers f ?_)).trans hc, hwears, hkind⟩
  rintro rfl
  obtain ⟨bytes, hcell⟩ := Heap.closure_eq_ok_iff.1 hc
  rw [Heap.kind?_of_cell? hcell] at hx
  cases hx

/-- **The methods for the name of initializers** are closures of initializers. -/
structure Suits (m₀ : Machine) (Q : FunctionKind → Nat → Code → Prop) (m : Machine) : Prop where
  named : m.heap.hasContents "init" m.initName = true
  initializers : ∀ {x : Handle} {C : Class} {v : Value}, m.heap.cls x = .ok C →
    C.methods.toMap m.initName = some v → m₀.Initializes Q m v

namespace Suits

/-- A class is as it was. -/
theorem retained (h : m₀.Suits Q m) (hs : m.heap.Healthy) (hretains : m.heap.Retains P R m'.heap) (hP : P x .cls)
    (hR : R .closure) (hC : m'.heap.cls x = .ok C) (hv : C.methods.toMap m.initName = some v) :
    m₀.Initializes Q m' v := by
  obtain ⟨bytes, hcell⟩ := Heap.cls_eq_ok_iff.1 hC
  have hold := hretains.cells hP hcell
  obtain ⟨f, c, s, rfl, hc, hwears, hkind⟩ := h.initializers (Heap.cls_of_cell? hold) hv
  obtain ⟨bytes', hclosure⟩ := Heap.closure_eq_ok_iff.1 hc
  have hwithin : C.methods.Within (· ∈ C.methods.handles) := Table.within_iff.2 fun _ => id
  have hget : C.methods.get? ⟨m.initName, m.heap.hashOf m.initName⟩ = some (.obj f) :=
    ((hs.fit hold).2.sound.get? rfl).trans hv
  have hstill := hretains.references hP hcell (List.mem_cons_of_mem _ (hwithin.get? hget f rfl)) hclosure hR
  exact ⟨f, c, s, rfl, Heap.closure_of_cell? hstill, hwears, hkind⟩

/-- A class has been made. -/
theorem makes (h : m₀.Suits Q m) (hs : m.heap.Healthy) {z y : Handle}
    (ha : m.heap.Allocates m.roots (.cls { name := z }) y m'.heap) (hC : m'.heap.cls x = .ok C)
    (hv : C.methods.toMap m.initName = some v) : m₀.Initializes Q m' v := by
  by_cases hx : x = y
  · subst hx
    obtain rfl := Except.ok.inj ((Heap.cls_of_cell? ha.new).symm.trans hC)
    simp [Table.toMap, Table.entries] at hv
  · exact h.retained (P := fun y' _ => y' ≠ y) (R := fun _ => True) hs (.allocates ha (fun hne => hne rfl)) hx trivial hC hv

/-- A class has got other methods, and each of them is one that a class had. -/
theorem rewrites {sub : Handle} {old : Class} (h : m₀.Suits Q m) (hold : m.heap.cls sub = .ok old)
    (hothers : ∀ y ≠ sub, m'.heap.cell? y = m.heap.cell? y) {new : Class} (hnew : m'.heap.cls sub = .ok new)
    (hmethods : new.methods.toMap m.initName = some v → m₀.Initializes Q m v) (hC : m'.heap.cls x = .ok C)
    (hv : C.methods.toMap m.initName = some v) : m₀.Initializes Q m' v := by
  obtain ⟨bytes, hcell⟩ := Heap.cls_eq_ok_iff.1 hold
  refine Initializes.kept ?_ (Heap.kind?_of_cell? hcell) hothers
  by_cases hx : x = sub
  · subst hx
    obtain rfl := Except.ok.inj (hnew.symm.trans hC)
    exact hmethods hv
  · exact h.initializers ((Heap.cls_congr (hothers x hx)).symm.trans hC) hv

/-- **A step** of a run. -/
theorem step (h : m₀.Suits Q m) (hcourse : m₀.Course Q W K n m r ref under) (hm : m.step = .ok false m') :
    m₀.Suits Q m' := by
  have hs := hcourse.tracks.orderly.sane.heap
  have hnames : m.Names m' := (Run.Along.ends (x := Run.execute)).of_ok hm
  refine ⟨hnames.initName ▸ hnames.contents hs.tidy _ h.named, fun {x C v} hC hv => ?_⟩
  rw [hnames.initName] at hv
  obtain ⟨f, rest, closure, s, i, hat, hformed, hholds⟩ := hcourse.next
  by_cases hclasses : Symbolic.Instruction.Classless i.opcode
  · exact h.retained hs ((hat.classless hcourse.tracks hformed hclasses).of_ok hm) rfl (.inr rfl) hC hv
  · rcases hformed.classy hclasses with ⟨name, rfl⟩ | rfl | ⟨name, rfl⟩
    · obtain ⟨z, y, -, -, ha, -⟩ := hat.makesClass hcourse.tracks hm
      exact h.makes hs ha hC hv
    · obtain ⟨super, sub, S, old, -, -, -, hS, hold, hnew, hothers, -⟩ := hat.inherits hcourse.tracks hm
      refine h.rewrites hold hothers hnew (fun hv => ?_) hC hv
      obtain ⟨bytes, hcell⟩ := Heap.cls_eq_ok_iff.1 hS
      obtain ⟨bytes', hcell'⟩ := Heap.cls_eq_ok_iff.1 hold
      change (S.methods.addAll old.methods).toMap m.initName = some v at hv
      rw [((hs.fit hcell).2.sound.addAll (hs.fit hcell').2.sound).2, Option.or_eq_some_iff] at hv
      rcases hv with hv | ⟨-, hv⟩
      · exact h.initializers hS hv
      · exact h.initializers hold hv
    · obtain ⟨z, f, cls, old, hz, -, htop, -, hold, hnew, hothers, -⟩ := hat.makesMethod hcourse.tracks hm
      refine h.rewrites hold hothers hnew (fun hv => ?_) hC hv
      obtain ⟨bytes, hcell⟩ := Heap.cls_eq_ok_iff.1 hold
      have hmap : (old.methods.insert ⟨z, m.heap.hashOf z⟩ (.obj f)).toMap =
          Function.update old.methods.toMap z (some (.obj f)) := ((hs.fit hcell).2.sound.set rfl (.obj f)).2.2
      rw [hmap, Function.update_apply] at hv
      split at hv
      · rename_i hname
        obtain ⟨f', c, s', htop', hc, hwears, hkind⟩ := hholds name rfl
        cases htop.symm.trans htop'
        obtain rfl : name = "init" := Heap.hasContents_inj hz (hname ▸ h.named)
        exact ⟨f, c, s', (Option.some.inj hv).symm, hc, hwears, hkind⟩
      · exact h.initializers hold hv

/-- **In a whole run**, the methods for the name of initializers are closures of initializers. -/
theorem run_to (h : m₀.Suits Q m₀)
    (hcourse : ∀ {n m}, m₀.run n = .running m → ∃ r ref under, m₀.Course Q W K n m r ref under)
    (hrun : m₀.run n = .running m) : m₀.Suits Q m := by
  induction n generalizing m with
  | zero =>
    cases hrun
    exact h
  | succ n ih =>
    obtain ⟨m₁, hrun₁, hm⟩ := run_succ_inv hrun
    obtain ⟨_, _, _, hcourse₁⟩ := hcourse hrun₁
    exact (ih hrun₁).step hcourse₁ hm

end Suits

/-! ## The name of initializers -/

theorem Names.defineNative (m : Machine) (n : Native) : m.Names (m.defineNative n) := by
  have hname : m.Names { m with heap := (m.heap.intern (.mk fun _ => m.roots) n.name).2 } := Interns.intern m n.name
  unfold Machine.defineNative
  dsimp only
  generalize m.heap.intern (.mk fun _ => m.roots) n.name = interned at *
  obtain ⟨name, heap⟩ := interned
  -- the name is on the stack while the function is made
  have hheld : { m with heap }.Names { m with heap, stack := m.stack.push (.obj name) } := .of_heap rfl rfl
  have hmade := Makes.make (R := Names) { m with heap, stack := m.stack.push (.obj name) } (.native n) rfl nofun
  exact Chains.trans hname (Chains.trans hheld (Chains.trans hmade (.of_heap rfl rfl)))

/-- A fresh machine knows the name of initializers. -/
theorem create_named (config : GcConfig) (journal : Journal) (sink : Sink) (clock : Nat → Number) :
    (create { config, journal } sink clock).heap.hasContents "init"
      (create { config, journal } sink clock).initName = true := by
  have hempty : ({ config, journal } : Heap).Tidy := Heap.tidy_of_empty rfl
  have htidy := Heap.tidy_intern hempty (Thunk.pure []) "init"
  have hcontents := Heap.hasContents_intern hempty (Thunk.pure []) "init"
  unfold create
  dsimp only
  generalize ({ config, journal } : Heap).intern (Thunk.pure []) "init" = interned at *
  obtain ⟨initName, heap⟩ := interned
  have hnames := Names.defineNative { heap, initName, sink, clock } .clock
  rw [hnames.initName]
  exact hnames.contents htidy _ hcontents

/-- So does one on which a source has been loaded. -/
theorem load_named {m : Machine} {source : String} {h : Handle} {heap : Heap} (ht : m.heap.Tidy)
    (hname : m.heap.hasContents "init" m.initName = true)
    (hcompile : compile source m.heap (.mk fun _ => m.roots) = (.ok h, heap)) (hload : m.load source = (none, m₀)) :
    m₀.heap.hasContents "init" m₀.initName = true := by
  have hallots := compile_allots source m.heap (.mk fun _ => m.roots)
  rw [hcompile] at hallots
  obtain ⟨htidy, hkeeps⟩ := hallots.keeps ht
  have hroot : m.initName ∈ m.roots := mem_roots.2 (.inr (.inr (.inr (.inr rfl))))
  have hname' : heap.hasContents "init" m.initName = true := by
    obtain ⟨text, bytes, hcell, -⟩ := (Heap.hasContents_iff _ _ _).1 hname
    rw [Heap.hasContents_congr (hkeeps _ (.root hroot (Heap.contains_of_cell? hcell)))]
    exact hname
  cases henter : enter h { m with heap } with
  | ok _ m' =>
    cases (load_started hcompile henter).symm.trans hload
    have : Run.Along Names (enter h) := by
      unfold enter
      refine .bind fun _ => .bind fun closure => ?_
      infer_instance
    have hnames : { m with heap }.Names m₀ := (Run.Along.ends (x := enter h)).of_ok henter
    rw [hnames.initName]
    exact hnames.contents htidy _ hname'
  | error why m' =>
    cases (load_aborted hcompile henter).symm.trans hload

end Machine

end LoxMachine
