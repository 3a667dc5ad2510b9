import LoxMachine.Proofs.Runs.Instructions
import LoxMachine.Proofs.Runs.Methods
import LoxMachine.Proofs.Runs.Standing

/-!
# Class declarations in a run

The code of a class declaration has no jumps and no calls, so a run goes through it instruction by instruction.

* `Passage` is the execution of a class declaration, with the class that it makes.
* `Passage.Amid`: what holds on the way.
-/

namespace LoxMachine

open Symbolic

variable {Q : FunctionKind → Nat → Code → Prop} {W : Machine → Closure → Sheet → Prop}
  {K : ClassDeclaration → Prop} {m₀ m m' : Machine} {i : Symbolic.Instruction} {todo : Code} {done : Bool}
  {extra extra' : List Value} {values : Handle → Option Value} {methods : Methods} {x y : Value}

/-! ## The code of a class declaration -/

namespace ClassDeclaration

variable (d : ClassDeclaration) (σ : Setting) (r : Receivers)

/-- The variable of the class, seen from where its methods stand. -/
def self : Variable := (d.inner σ).variable d.name

/-- The code that gets the methods of the superclass. -/
def superCode : Code :=
  d.superclass.elim [] fun s => [.get ((σ.define d.name).variable s), .get (d.self σ), .op .inherit]

/-- The code of some methods, and of the end of the declaration. -/
def methodsCode (methods : List Routine) : Code := Routine.listCode methods (d.inner σ) r ++ [.op .pop]

theorem code_eq : d.code σ r = .named .cls d.name ::
    (σ.defining d.name ++ (d.superCode σ ++ (.get (d.self σ) :: d.methodsCode σ r d.methods))) := by
  cases h : d.superclass <;>
    simp [code, classCode, superCode, self, inner, methodsCode, h]

end ClassDeclaration

/-! ## Passages -/

/-- The execution of a class declaration that begins before the step `start` of a run. -/
structure Passage where
  start : Nat
  before : Machine
  frame : Frame
  rest : List Frame
  closure : Closure
  sheet : Sheet
  declaration : ClassDeclaration
  setting : Setting
  receivers : Receivers
  /-- The code after the declaration. -/
  more : Code
  /-- The class that is made. -/
  cls : Handle
  /-- The name of the class. -/
  name : Handle

namespace Passage

variable {p : Passage}

def code (p : Passage) : Code := p.declaration.code p.setting p.receivers

def self (p : Passage) : Variable := p.declaration.self p.setting

/-- What the class adds to the stack once its variable is there. -/
def home (p : Passage) : List Value := if p.setting.here.depth = 0 then [] else [.obj p.cls]

/-- The global variables once that of the class is there. -/
def bindings (p : Passage) : Handle → Option Value :=
  if p.setting.here.depth = 0 then Function.update p.before.globals.toMap p.name (some (.obj p.cls))
  else p.before.globals.toMap

/-- The run has come to the declaration. -/
structure Begins (m₀ : Machine) (Q : FunctionKind → Nat → Code → Prop) (W : Machine → Closure → Sheet → Prop)
    (p : Passage) : Prop where
  run : m₀.run p.start = .running p.before
  tracks : m₀.Tracks Q W p.before
  faces : m₀.Faces Q W p.before p.frame p.rest p.closure p.sheet (p.code ++ p.more)
  fits : p.declaration.Fits p.setting (p.before.stack.size - p.frame.base)
  named : p.before.heap.hasContents p.declaration.name p.name = true
  fresh : p.before.heap.contains p.cls = false

/-- What holds in a state `m` during the execution. The code `todo` is still to be executed, `extra` has been added to
the stack, the global variables have the given values, and the class has the given methods. -/
structure Amid (m₀ : Machine) (Q : FunctionKind → Nat → Code → Prop) (W : Machine → Closure → Sheet → Prop)
    (K : ClassDeclaration → Prop) (p : Passage) (m : Machine) (todo : Code) (extra : List Value)
    (values : Handle → Option Value) (methods : Methods) : Prop where
  tracks : m₀.Tracks Q W m
  faces : ∃ ip, ip + extent todo = p.frame.ip + extent p.code ∧
    m₀.Faces Q W m { p.frame with ip } p.rest p.closure p.sheet (todo ++ p.more)
  below : m₀.Stands Q W K m p.rest (p.frame.base + 1)
  stack : m.stack.toList = p.before.stack.toList ++ extra
  globals : m.globals.toMap = values
  retains : p.before.heap.Retains (fun y k => k = .string ∨ k = .cls ∧ y ≠ p.cls)
    (fun k => k = .string ∨ k = .closure) m.heap
  methods : m.heap.HasMethods p.cls methods

/-- What was there before is another object than the class. -/
theorem Begins.ne (hp : p.Begins m₀ Q W) {x : Handle} (hx : p.before.heap.contains x = true) : x ≠ p.cls := by
  rintro rfl
  exact Bool.false_ne_true (hp.fresh.symm.trans hx)

namespace Amid

/-- A step goes on in the code. -/
theorem advance (hQ : Inward Q) (h : p.Amid m₀ Q W K m (i :: todo) extra values methods) (hformed : i.Formed)
    (hstraight : Symbolic.Instruction.Straight i.opcode) (hcalls : i.opcode.calls = false)
    (hm : m.step = .ok done m') (hkept : m₀.Kept Q W m m') : done = false ∧ m₀.Tracks Q W m' ∧
      (∃ ip, ip + extent todo = p.frame.ip + extent p.code ∧
        m₀.Faces Q W m' { p.frame with ip } p.rest p.closure p.sheet (todo ++ p.more)) ∧
      m₀.Stands Q W K m' p.rest (p.frame.base + 1) := by
  obtain ⟨ip, hip, hat⟩ := h.faces
  obtain ⟨rfl, hframes⟩ := hat.head.goesOn h.tracks hformed hstraight hcalls hm
  refine ⟨rfl, h.tracks.step hQ hat.head hformed hm hkept, ⟨ip + i.size, ?_, ?_⟩, ?_⟩
  · rw [extent_cons] at hip
    omega
  · exact hat.next hQ h.tracks hformed hm hkept hframes
  · refine h.below.kept hkept fun f hf => ?_
    obtain ⟨c, hstays, -⟩ := hat.head.running hQ h.tracks hformed hm
      (hframes ▸ List.mem_cons_of_mem _ hf : f ∈ m'.frames)
    exact ⟨c, hstays⟩

/-- A step that changes the stack only. -/
theorem same (hQ : Inward Q) (h : p.Amid m₀ Q W K m (i :: todo) extra values methods) (hformed : i.Formed)
    (hstraight : Symbolic.Instruction.Straight i.opcode) (hcalls : i.opcode.calls = false)
    (hm : m.step = .ok done m') (hkept : m₀.Kept Q W m m') (hsame : m.SameStore m')
    (hstack : m'.stack.toList = p.before.stack.toList ++ extra') :
    done = false ∧ p.Amid m₀ Q W K m' todo extra' values methods := by
  obtain ⟨rfl, htracks, hfaces, hbelow⟩ := h.advance hQ hformed hstraight hcalls hm hkept
  have hretains : ∀ {P : Handle → ObjectKind → Prop} {R : ObjectKind → Prop}, m.heap.Retains P R m'.heap :=
    .of_cells htracks.orderly.sane.heap.tidy hsame.cells
  refine ⟨rfl, htracks, hfaces, hbelow, hstack, hsame.globals ▸ h.globals, h.retains.trans hretains, ?_⟩
  exact h.methods.retained (P := fun _ _ => True) (R := fun _ => True) hretains
    ((Heap.kind?_congr (hsame.cells _)).trans h.methods.kind?) trivial trivial trivial

theorem straight_get (v : Variable) : Symbolic.Instruction.Straight (Symbolic.Instruction.get v).opcode := by
  cases v <;> exact ⟨nofun, nofun, nofun, nofun⟩

theorem calls_get (v : Variable) : (Symbolic.Instruction.get v).opcode.calls = false := by
  cases v <;> rfl

/-- The name of the class is the key of its global variable. -/
theorem key_eq (hp : p.Begins m₀ Q W) (h : p.Amid m₀ Q W K m todo extra values methods) {z : Handle}
    (hz : m.heap.hasContents p.declaration.name z = true) : z = p.name := by
  obtain ⟨text, bytes, hcell, htext⟩ := (Heap.hasContents_iff _ _ _).1 hz
  have hold := h.retains.cells (.inl rfl) hcell
  exact hp.tracks.orderly.sane.heap.interned.unique _ _ _ ((Heap.hasContents_iff _ _ _).2 ⟨text, bytes, hold, htext⟩)
    hp.named

theorem get?_globals (h : p.Amid m₀ Q W K m todo extra values methods) (z : Handle) :
    m.globals.get? ⟨z, m.heap.hashOf z⟩ = values z := by
  rw [show m.globals.get? ⟨z, m.heap.hashOf z⟩ = m.globals.toMap z from h.tracks.orderly.sane.keyed.sound.get? rfl,
    h.globals]

/-- **The variable of the class** holds the class. -/
theorem self_eq (hp : p.Begins m₀ Q W) {e : List Value} (h : p.Amid m₀ Q W K m todo (p.home ++ e) p.bindings methods)
    {f : Frame} (hf : f.base = p.frame.base) {c : Closure} {s : Sheet} (hreads : m.Reads f c s p.self x) :
    x = .obj p.cls := by
  have htarget := hp.fits.target
  have hsize := hp.tracks.stable.base_le_size hp.faces.frames
  unfold Passage.self ClassDeclaration.self at hreads
  rw [htarget] at hreads
  split at hreads
  · rename_i hdepth
    obtain ⟨z, hz, hget⟩ := hreads
    rw [h.get?_globals, h.key_eq hp hz, Passage.bindings, if_pos hdepth, Function.update_self] at hget
    exact (Option.some.inj hget).symm
  · rename_i hdepth
    have hget : m.stack[f.base + (p.before.stack.size - p.frame.base)]? = some x := hreads
    have hindex : f.base + (p.before.stack.size - p.frame.base) = p.before.stack.toList.length := by
      rw [hf, Array.length_toList]
      omega
    rw [← Array.getElem?_toList, h.stack, Passage.home, if_neg hdepth, hindex, List.getElem?_append_right le_rfl,
      Nat.sub_self] at hget
    exact (Option.some.inj hget).symm

/-- The class has been got from its variable. -/
theorem getsSelf (hQ : Inward Q) (hp : p.Begins m₀ Q W) {e : List Value}
    (h : p.Amid m₀ Q W K m (.get p.self :: todo) (p.home ++ e) p.bindings methods) (hm : m.step = .ok done m')
    (hkept : m₀.Kept Q W m m') :
    done = false ∧ p.Amid m₀ Q W K m' todo (p.home ++ (e ++ [.obj p.cls])) p.bindings methods := by
  obtain ⟨ip, -, hat⟩ := h.faces
  obtain ⟨x, hreads, hstack, hsame⟩ := hat.head.gets h.tracks hm
  obtain rfl := h.self_eq hp rfl hreads
  refine h.same hQ trivial (straight_get _) (calls_get _) hm hkept hsame ?_
  rw [hstack, Array.toList_push, h.stack, List.append_assoc, List.append_assoc]

/-- The class has been dropped at the end. -/
theorem drops (hQ : Inward Q) (h : p.Amid m₀ Q W K m (.op .pop :: todo) (extra ++ [x]) values methods)
    (hm : m.step = .ok done m') (hkept : m₀.Kept Q W m m') :
    done = false ∧ p.Amid m₀ Q W K m' todo extra values methods := by
  obtain ⟨ip, -, hat⟩ := h.faces
  obtain ⟨hstack, hsame⟩ := hat.head.pops h.tracks hm
  refine h.same hQ rfl ⟨nofun, nofun, nofun, nofun⟩ rfl hm hkept hsame ?_
  rw [hstack, Array.toList_pop, h.stack, ← List.append_assoc, List.dropLast_concat]

/-! ### The superclass -/

/-- **The value of the superclass** has been there before the class was made. -/
theorem superclass_ne (hp : p.Begins m₀ Q W) (h : p.Amid m₀ Q W K m todo p.home p.bindings methods)
    {o : Object} (ha : p.before.heap.Allocates p.before.roots o p.cls m.heap) {name : String}
    (hsuper : p.declaration.superclass = some name) {f : Frame} (hf : f.base = p.frame.base) {s : Sheet}
    (hreads : m.Reads f p.closure s ((p.setting.define p.declaration.name).variable name) x) :
    x ≠ .obj p.cls := by
  have hs := hp.tracks.orderly.sane
  have hsize := hp.tracks.stable.base_le_size hp.faces.frames
  have hstacked : ∀ {q : Nat}, q < p.before.stack.size → m.stack[q]? = some x → x ≠ .obj p.cls := by
    rintro q hq hx rfl
    rw [← Array.getElem?_toList, h.stack, List.getElem?_append_left (by simpa using hq), Array.getElem?_toList] at hx
    exact hp.ne (hs.stack _ (Array.mem_of_getElem? hx)) rfl
  rw [Setting.variable_define (hp.fits.apart name hsuper)] at hreads
  generalize hv : p.setting.variable name = v at hreads
  cases v with
  | own slot n =>
    have hlt := Setting.slot_lt hv
    rw [hp.fits.height] at hlt
    exact hstacked (by omega) hreads
  | outer place n =>
    obtain ⟨b, u, w, -, hu, hw, hyields⟩ := hreads
    obtain ⟨bytes, hclosure⟩ := Heap.closure_eq_ok_iff.1 hp.faces.closure
    have hmem := Array.mem_of_getElem? hu
    have hold := hs.heap.closed hclosure (List.mem_cons_of_mem _ (Array.mem_toList_iff.2 hmem))
    obtain ⟨bytes, hcell⟩ := Heap.upvalue_eq_ok_iff.1 hw
    have hcell' := ha.old (hp.ne hold) hcell
    cases hyields with
    | stacked hx =>
      refine hstacked (hp.tracks.stable.openInside.captured _ _ ?_ hp.faces.closure u hmem _
        (Heap.upvalue_eq_ok_iff.2 ⟨bytes, hcell'⟩)) hx
      exact hs.reachable_root (Machine.mem_roots.2 (.inr (.inl ⟨_, hp.faces.frames ▸ List.mem_cons_self, rfl⟩)))
    | closed =>
      rintro rfl
      exact hp.ne (hs.heap.closed hcell' (List.mem_singleton_self _)) rfl
  | global n =>
    obtain ⟨z, hz, hget⟩ := hreads
    obtain ⟨text, bytes, hcell, htext⟩ := (Heap.hasContents_iff _ _ _).1 hz
    have hz' := (Heap.hasContents_iff _ _ _).2 ⟨text, bytes, h.retains.cells (.inl rfl) hcell, htext⟩
    have hne : z ≠ p.name := by
      rintro rfl
      have hname := Heap.hasContents_inj hz' hp.named
      rw [Setting.variable_global hv] at hname
      exact hp.fits.apart name hsuper hname.symm
    have hvalue : p.before.globals.toMap z = some x := by
      rw [← hget, h.get?_globals, Passage.bindings]
      split
      · rw [Function.update_of_ne hne]
      · rfl
    have hvalue : p.before.globals.get? ⟨z, p.before.heap.hashOf z⟩ = some x := (hs.keyed.sound.get? rfl).trans hvalue
    rintro rfl
    exact hp.ne (hs.globals.get? hvalue _ rfl) rfl

/-- The superclass has been got from its variable. -/
theorem getsSuper (hQ : Inward Q) (hp : p.Begins m₀ Q W) {o : Object} {name : String}
    (ha : p.before.heap.Allocates p.before.roots o p.cls m.heap) (hsuper : p.declaration.superclass = some name)
    (h : p.Amid m₀ Q W K m (.get ((p.setting.define p.declaration.name).variable name) :: todo) p.home p.bindings methods)
    (hm : m.step = .ok done m') (hkept : m₀.Kept Q W m m') :
    done = false ∧ ∃ x, x ≠ .obj p.cls ∧ p.Amid m₀ Q W K m' todo (p.home ++ [x]) p.bindings methods := by
  obtain ⟨ip, -, hat⟩ := h.faces
  obtain ⟨x, hreads, hstack, hsame⟩ := hat.head.gets h.tracks hm
  have hne := h.superclass_ne hp ha hsuper rfl hreads
  obtain ⟨rfl, h'⟩ := h.same hQ trivial (straight_get _) (calls_get _) hm hkept hsame
    (show _ = _ ++ (p.home ++ [x]) by rw [hstack, Array.toList_push, h.stack, List.append_assoc])
  exact ⟨rfl, x, hne, h'⟩

/-! ### The other instructions -/

/-- Two values on top. -/
theorem top_two (h : p.Amid m₀ Q W K m todo (extra ++ [x, y]) values methods) :
    m.stack[m.stack.size - 2]? = some x ∧ m.stack.back? = some y ∧
      m.stack.pop.toList = p.before.stack.toList ++ (extra ++ [x]) := by
  have hstack := h.stack
  rw [← List.append_assoc] at hstack
  have hsize : m.stack.size = (p.before.stack.toList ++ extra).length + 2 := by
    rw [← Array.length_toList, hstack, List.length_append]
    rfl
  refine ⟨?_, ?_, ?_⟩
  · rw [← Array.getElem?_toList, hstack, hsize, Nat.add_sub_cancel, List.getElem?_append_right le_rfl, Nat.sub_self]
    rfl
  · rw [Array.back?_eq_getElem?, ← Array.getElem?_toList, hstack, hsize,
      List.getElem?_append_right (by omega)]
    simp
  · rw [Array.toList_pop, hstack, List.dropLast_append_of_ne_nil (by simp), List.append_assoc]
    rfl

/-- The class is defined as a global variable. -/
theorem defines (hQ : Inward Q) (hp : p.Begins m₀ Q W) (hdepth : p.setting.here.depth = 0)
    (h : p.Amid m₀ Q W K m (.named .defineGlobal p.declaration.name :: todo) [.obj p.cls] p.before.globals.toMap methods)
    (hm : m.step = .ok done m') (hkept : m₀.Kept Q W m m') :
    done = false ∧ p.Amid m₀ Q W K m' todo p.home p.bindings methods ∧ ∀ x, m'.heap.cell? x = m.heap.cell? x := by
  obtain ⟨ip, -, hat⟩ := h.faces
  obtain ⟨z, x, hz, hx, hglobals, hstack, hcells⟩ := hat.head.definesGlobal h.tracks hm
  obtain ⟨rfl, htracks, hfaces, hbelow⟩ := h.advance hQ rfl ⟨nofun, nofun, nofun, nofun⟩ rfl hm hkept
  obtain rfl := h.key_eq hp hz
  have hretains : ∀ {P : Handle → ObjectKind → Prop} {R : ObjectKind → Prop}, m.heap.Retains P R m'.heap :=
    .of_cells htracks.orderly.sane.heap.tidy hcells
  have hback : x = .obj p.cls := by
    have hsize : m.stack.size = p.before.stack.toList.length + 1 := by
      rw [← Array.length_toList, h.stack, List.length_append]
      rfl
    rw [Array.back?_eq_getElem?, ← Array.getElem?_toList, h.stack, hsize, Nat.add_sub_cancel,
      List.getElem?_append_right le_rfl, Nat.sub_self] at hx
    exact (Option.some.inj hx).symm
  refine ⟨rfl, ⟨htracks, hfaces, hbelow, ?_, ?_, h.retains.trans hretains, ?_⟩, hcells⟩
  · rw [hstack, Array.toList_pop, h.stack, List.dropLast_concat, Passage.home, if_pos hdepth, List.append_nil]
  · have hset : (m.globals.set ⟨p.name, m.heap.hashOf p.name⟩ x).2.toMap =
        Function.update m.globals.toMap p.name (some x) := (h.tracks.orderly.sane.keyed.sound.set rfl x).2.2
    rw [hglobals, Table.insert, hset, h.globals, Passage.bindings, if_pos hdepth, hback]
  · exact h.methods.retained (P := fun _ _ => True) (R := fun _ => True) hretains
      ((Heap.kind?_congr (hcells _)).trans h.methods.kind?) trivial trivial trivial

/-- **The methods of the superclass are copied.** The superclass is a class then. -/
theorem inherits (hQ : Inward Q)
    (h : p.Amid m₀ Q W K m (.op .inherit :: todo) (extra ++ [x, .obj p.cls]) values fun _ => none)
    (hx : x ≠ .obj p.cls) (hm : m.step = .ok done m') (hkept : m₀.Kept Q W m m') :
    done = false ∧ ∃ S, x = .obj S ∧ m.heap.kind? S = some .cls ∧ ∀ methods, m.heap.HasMethods S methods →
      p.Amid m₀ Q W K m' todo (extra ++ [x]) values methods := by
  obtain ⟨ip, -, hat⟩ := h.faces
  obtain ⟨super, sub, S, C, -, hsuper, hsub, hS, hC, hC', hothers, hglobals, hstack⟩ := hat.head.inherits h.tracks hm
  obtain ⟨rfl, htracks, hfaces, hbelow⟩ := h.advance hQ rfl ⟨nofun, nofun, nofun, nofun⟩ rfl hm hkept
  obtain ⟨hbelowTop, htop, hpop⟩ := h.top_two
  obtain rfl := Option.some.inj (hsuper.symm.trans hbelowTop)
  cases hsub.symm.trans htop
  have hh := h.tracks.orderly.sane.heap
  obtain ⟨bytes, hcell⟩ := Heap.cls_eq_ok_iff.1 hS
  obtain ⟨bytes', hcell'⟩ := Heap.cls_eq_ok_iff.1 hC
  refine ⟨rfl, super, rfl, Heap.kind?_of_cell? hcell, fun methods hmethods => ?_⟩
  have hnew : m'.heap.HasMethods p.cls methods := by
    obtain ⟨S', hS', htable⟩ := hmethods
    obtain rfl := Except.ok.inj (hS.symm.trans hS')
    obtain ⟨C'', hC'', hempty⟩ := h.methods
    obtain rfl := Except.ok.inj (hC.symm.trans hC'')
    exact .rewrite (htable.addAll hempty (hh.fit hcell).2 (hh.fit hcell').2) h.methods.kind? hC' hothers
  obtain ⟨bytes'', hcell''⟩ := Heap.cls_eq_ok_iff.1 hC'
  refine ⟨htracks, hfaces, hbelow, hstack ▸ hpop, hglobals ▸ h.globals, h.retains.trans ?_, hnew⟩
  exact .of_others htracks.orderly.sane.heap.tidy h.methods.kind? (Heap.kind?_of_cell? hcell'') hothers (by simp) (by simp)

/-- **A method is written.** -/
theorem makesMethod (hQ : Inward Q) {name : String} {f : Handle}
    (h : p.Amid m₀ Q W K m (.named .method name :: todo) (extra ++ [.obj p.cls, .obj f]) values methods)
    (hf : m.heap.kind? f = some .closure) (hm : m.step = .ok done m') (hkept : m₀.Kept Q W m m') :
    done = false ∧
      p.Amid m₀ Q W K m' todo (extra ++ [.obj p.cls]) values (Function.update methods name (some f)) := by
  obtain ⟨ip, -, hat⟩ := h.faces
  obtain ⟨z, x, cls, C, hz, -, hx, hcls, hC, hC', hothers, hglobals, hstack⟩ := hat.head.makesMethod h.tracks hm
  obtain ⟨rfl, htracks, hfaces, hbelow⟩ := h.advance hQ rfl ⟨nofun, nofun, nofun, nofun⟩ rfl hm hkept
  obtain ⟨hbelowTop, htop, hpop⟩ := h.top_two
  cases hcls.symm.trans hbelowTop
  cases hx.symm.trans htop
  have hh := h.tracks.orderly.sane.heap
  obtain ⟨bytes, hcell⟩ := Heap.cls_eq_ok_iff.1 hC
  obtain ⟨bytes', hcell'⟩ := Heap.cls_eq_ok_iff.1 hC'
  have hnew : m'.heap.HasMethods p.cls (Function.update methods name (some f)) := by
    obtain ⟨C', hC'', htable⟩ := h.methods
    obtain rfl := Except.ok.inj (hC.symm.trans hC'')
    exact .rewrite (htable.insert hh.interned (hh.fit hcell).2 hz hf) h.methods.kind? hC' hothers
  refine ⟨rfl, htracks, hfaces, hbelow, hstack ▸ hpop, hglobals ▸ h.globals, h.retains.trans ?_, hnew⟩
  exact .of_others htracks.orderly.sane.heap.tidy h.methods.kind? (Heap.kind?_of_cell? hcell') hothers (by simp) (by simp)

/-- **The closure of a method is made.** -/
theorem makesClosure (hQ : Inward Q) {kind : FunctionKind} {name : String} {arity : Nat}
    {captured : List (Nat × Nat)} {body : Code}
    (h : p.Amid m₀ Q W K m (.closure kind name arity captured body :: todo) (extra ++ [.obj p.cls]) values methods)
    (hm : m.step = .ok done m') (hkept : m₀.Kept Q W m m') :
    done = false ∧ ∃ f new, p.Amid m₀ Q W K m' todo (extra ++ [.obj p.cls, .obj f]) values methods ∧
      m'.heap.closure f = .ok new ∧ m₀.Wears Q new ⟨kind, some name, arity, captured, p.sheet.level + 1, body⟩ := by
  obtain ⟨ip, -, hat⟩ := h.faces
  obtain ⟨f, new, hstack, hglobals, hnew, hwears, -, -, hkeeps, hretains⟩ := hat.head.makesClosure hQ h.tracks hm
  obtain ⟨rfl, htracks, hfaces, hbelow⟩ := h.advance hQ trivial ⟨nofun, nofun, nofun, nofun⟩ rfl hm hkept
  have hin : Value.obj p.cls ∈ m.stack := by
    rw [← Array.mem_toList_iff, h.stack]
    simp
  have hcls : m'.heap.kind? p.cls = some .cls := by
    have hsame := hkeeps _ (h.tracks.orderly.sane.reachable_root (Machine.mem_roots.2 (.inl hin)))
    exact (Heap.kind?_congr hsame).trans h.methods.kind?
  obtain ⟨bytes, hcell⟩ := Heap.closure_eq_ok_iff.1 hnew
  have hne : ∀ {y cell}, m'.heap.cell? y = some cell → cell.object.kind ≠ .closure → y ≠ f := by
    rintro y cell hy hk rfl
    cases hcell.symm.trans hy
    exact hk rfl
  have hmore : m.heap.Retains (fun y k => k = .string ∨ k = .cls ∧ y ≠ p.cls)
    (fun k => k = .string ∨ k = .closure) m'.heap := by
    refine hretains.mono_cells (fun hy hP => ⟨?_, hne hy ?_⟩) fun _ _ => trivial
    · rcases hP with hk | ⟨hk, -⟩ <;> rw [hk] <;> nofun
    · rcases hP with hk | ⟨hk, -⟩ <;> rw [hk] <;> nofun
  refine ⟨rfl, f, new, ⟨htracks, hfaces, hbelow, ?_, hglobals ▸ h.globals, h.retains.trans hmore, ?_⟩, hnew, hwears⟩
  · rw [hstack, Array.toList_push, h.stack, List.append_assoc, List.append_assoc]
    rfl
  · refine h.methods.retained hretains hcls ⟨nofun, ?_⟩ trivial trivial
    obtain ⟨C, bytes', hC⟩ := Heap.cls_of_kind? hcls
    exact hne hC nofun

end Amid

end Passage

end LoxMachine
