import LoxMachine.Proofs.Heap.Lifetimes
import LoxMachine.Proofs.Runs.Following

/-!
# What symbolic instructions have done

What follows from a step in front of an instruction.

* `Faces.next`: control goes on after it.
* `Machine.Reads m f c s v x`: `x` is the value of the variable `v`, seen from the innermost call.
* `Faces.gets`, `Faces.pops`, `Faces.definesGlobal`, `Faces.makesClass`, `Faces.inherits` and `Faces.makesMethod`: the
  instructions of class declarations.
-/

namespace LoxMachine

open Symbolic

variable {Q : FunctionKind → Nat → Code → Prop} {W : Machine → Closure → Sheet → Prop}
  {m₀ m m' : Machine} {f : Frame} {rest : List Frame} {c : Closure} {s : Sheet} {g : Function}
  {i : Symbolic.Instruction} {code : Code} {done : Bool} {v : Variable} {name : String} {x : Handle} {b : UInt8}
  {heap heap' heap'' : Heap} {roots : List Handle} {o : Object}

/-! ## Heaps with the same objects -/

namespace Heap

theorem upvalue_congr (h : heap'.cell? x = heap.cell? x) : heap'.upvalue x = heap.upvalue x := by
  unfold Heap.upvalue Heap.object
  rw [h]

theorem cls_congr (h : heap'.cell? x = heap.cell? x) : heap'.cls x = heap.cls x := by
  unfold Heap.cls Heap.object
  rw [h]

theorem Allocates.of_cells (h : heap'.Allocates roots o x heap'') (hcells : ∀ y, heap'.cell? y = heap.cell? y) :
    heap.Allocates roots o x heap'' where
  new := h.new
  kept hr := by
    rw [← hcells]
    exact h.kept (hr.congr hcells)
  old hne hc := (hcells _).symm.trans (h.old hne hc)
  closed hne hc hr hlive := h.closed hne hc hr (by rwa [contains, hcells])
  tidy := h.tidy

theorem Allocates.to_cells (h : heap.Allocates roots o x heap') (hcells : ∀ y, heap''.cell? y = heap'.cell? y)
    (ht : heap''.Tidy) : heap.Allocates roots o x heap'' where
  new := (hcells x).trans h.new
  kept hr := ⟨(h.kept hr).1, (hcells _).trans (h.kept hr).2⟩
  old hne hc := h.old hne ((hcells _).symm.trans hc)
  closed hne hc hr hlive := by
    rw [contains, hcells]
    exact h.closed hne ((hcells _).symm.trans hc) hr hlive
  tidy := ht

end Heap

namespace Machine

/-- The objects and the global variables are the same. -/
structure SameStore (m m' : Machine) : Prop where
  cells : ∀ x, m'.heap.cell? x = m.heap.cell? x
  globals : m'.globals = m.globals

/-- The value of a variable, seen from the innermost call `f`, which runs the closure `c`. -/
def Reads (m : Machine) (f : Frame) (c : Closure) (s : Sheet) : Variable → Value → Prop
  | .own slot _, x => m.stack[f.base + slot]? = some x
  | .outer place _, x => ∃ (b : Nat) (u : Handle) (w : Upvalue), s.captured[b]? = some place ∧
      c.upvalues[b]? = some u ∧ m.heap.upvalue u = .ok w ∧ m.Yields w x
  | .global name, x => ∃ z, m.heap.hasContents name z = true ∧ m.globals.get? ⟨z, m.heap.hashOf z⟩ = some x

/-! ## Control -/

namespace Faces

theorem next (hQ : Inward Q) (h : m₀.Tracks Q W m) (hat : m₀.Faces Q W m f rest c s (i :: code)) (hformed : i.Formed)
    (hm : m.step = .ok false m') (hkept : m₀.Kept Q W m m')
    (hframes : m'.frames = { f with ip := f.ip + i.size } :: rest) :
    m₀.Faces Q W m' { f with ip := f.ip + i.size } rest c s code := by
  obtain ⟨c', hstays, -⟩ := hat.head.running hQ h hformed hm (hframes ▸ List.mem_cons_self)
  obtain rfl := Except.ok.inj (hstays.before.symm.trans hat.closure)
  exact ⟨hframes, hstays.after, hat.wears, hkept.old hstays hat.holds, hat.lies.tail⟩

end Faces

/-! ## Names -/

/-- A name in the code is a string that is there. -/
theorem Tracks.says (h : m₀.Tracks Q W m) {y : Handle} (hg : m.heap.function y = .ok g)
    ( hsays : (s.linkage m₀.heap g).Says b name) :
    ∃ z, g.chunk.constants[b.toNat]? = some (.obj z) ∧ m.heap.hasContents name z = true := by
  obtain ⟨z, hz, hcontents⟩ := hsays
  obtain ⟨text, bytes, hcell, htext⟩ := (Heap.hasContents_iff _ _ _).1 hcontents
  have hconstant : g.chunk.constants[b.toNat]? = some (.obj z) := by
    rw [← Array.getElem?_toList]
    exact hz
  exact ⟨z, hconstant, (Heap.hasContents_iff _ _ _).2 ⟨text, bytes, h.constant hg hconstant hcell (.inr rfl), htext⟩⟩

namespace Faces

/-- An instruction that has a name as its operand. -/
theorem names {op : Opcode} (h : m₀.Tracks Q W m) (hat : m₀.Faces Q W m f rest c s [.named op name])
    (hoperand : op.operands = .constant) (hm : m.step = .ok done m') : ∃ heap b z,
      (∀ x, heap.cell? x = m.heap.cell? x) ∧ heap.hasContents name z = true ∧
      { m with heap, frames := { f with ip := f.ip + 1 } :: rest }.Orderly True ∧
      { m with heap, frames := { f with ip := f.ip + 1 } :: rest }.Consumes [b]
        { m with heap, frames := { f with ip := f.ip + 2 } :: rest } ∧
      { m with heap, frames := { f with ip := f.ip + 1 } :: rest }.HasConstant b (.obj z) ∧
      Run.perform op { m with heap, frames := { f with ip := f.ip + 1 } :: rest } = .ok done m' := by
  obtain ⟨g, ⟨mop, args⟩, heap, hg, hof, hi, hspells, hcells, ho₁, hconsumes, hrun⟩ := hat.performs h hoperand
  rw [hrun] at hm
  obtain rfl : mop = op := hspells.opcode
  cases hspells.bytes_eq (by simp) with
  | @named _ _ b hsays =>
    obtain ⟨z, hconstant, hcontents⟩ := h.says hg hsays
    exact ⟨heap, b, z, hcells, (Heap.hasContents_congr (hcells z)).trans hcontents, ho₁, hconsumes,
      ⟨_, rest, g, rfl, (Heap.function_congr (hcells _)).trans hg, hconstant⟩, hm⟩

/-! ## Instructions -/

/-- **The value of a variable has been pushed.** -/
theorem gets (h : m₀.Tracks Q W m) (hat : m₀.Faces Q W m f rest c s [.get v]) (hm : m.step = .ok done m') :
    ∃ x, m.Reads f c s v x ∧ m'.stack = m.stack.push x ∧ m.SameStore m' := by
  obtain ⟨g, ⟨mop, args⟩, heap, hg, hof, hi, hspells, hcells, ho₁, hconsumes, hrun⟩ := hat.performs h trivial
  rw [hrun] at hm
  obtain rfl : mop = v.getter := hspells.opcode
  cases hspells.bytes_eq (by simp) with
  | @get _ b hrefers =>
    cases v with
    | own slot name =>
      obtain ⟨x, hx, rfl⟩ := Run.getLocal_inv hconsumes rfl (Run.perform_inv hm).2
      obtain rfl : b.toNat = slot := hrefers
      exact ⟨x, hx, rfl, hcells, rfl⟩
    | outer place name =>
      obtain ⟨c', u, w, x, hc', hu, hw, hyields, rfl⟩ := Run.getUpvalue_inv hconsumes rfl (Run.perform_inv hm).2
      obtain rfl := Except.ok.inj (((Heap.closure_congr (hcells _)).symm.trans hc').symm.trans hat.closure)
      refine ⟨x, ⟨b.toNat, u, w, hrefers, hu, (Heap.upvalue_congr (hcells u)).symm.trans hw, ?_⟩, rfl, hcells, rfl⟩
      cases hyields with
      | stacked hp => exact .stacked hp
      | closed => exact .closed _
    | global name =>
      obtain ⟨z, hconstant, hcontents⟩ := h.says hg hrefers
      obtain ⟨x, hx, rfl⟩ := Run.getGlobal_inv hconsumes
        ⟨_, rest, g, rfl, (Heap.function_congr (hcells _)).trans hg, hconstant⟩
        ((Heap.hasContents_congr (hcells z)).trans hcontents) (Run.perform_inv hm).2
      exact ⟨x, ⟨z, hcontents, (Heap.hashOf_congr (hcells z)) ▸ hx⟩, rfl, hcells, rfl⟩

/-- The value on top has been dropped. -/
theorem pops (h : m₀.Tracks Q W m) (hat : m₀.Faces Q W m f rest c s [.op .pop]) (hm : m.step = .ok done m') :
    m'.stack = m.stack.pop ∧ m.SameStore m' := by
  obtain ⟨g, ⟨mop, args⟩, heap, hg, hof, hi, hspells, hcells, ho₁, hconsumes, hrun⟩ := hat.performs h rfl
  rw [hrun] at hm
  obtain rfl : mop = .pop := hspells.opcode
  obtain ⟨x, m₂, hpop, hpure⟩ := Run.bind_ok hm
  cases hpure
  obtain ⟨-, rfl⟩ := Run.pop_inv hpop
  exact ⟨rfl, hcells, rfl⟩

/-- **A global variable has been defined.** -/
theorem definesGlobal (h : m₀.Tracks Q W m) (hat : m₀.Faces Q W m f rest c s [.named .defineGlobal name])
    (hm : m.step = .ok done m') : ∃ z x, m.heap.hasContents name z = true ∧ m.stack.back? = some x ∧
      m'.globals = m.globals.insert ⟨z, m.heap.hashOf z⟩ x ∧ m'.stack = m.stack.pop ∧
      ∀ x, m'.heap.cell? x = m.heap.cell? x := by
  obtain ⟨heap, b, z, hcells, hcontents, -, hconsumes, hconstant, hrun⟩ := hat.names h rfl hm
  obtain ⟨x, hx, rfl⟩ := Run.defineGlobal_inv hconsumes hconstant hcontents (Run.perform_inv hrun).2
  refine ⟨z, x, (Heap.hasContents_congr (hcells z)).symm.trans hcontents, hx, ?_, rfl, hcells⟩
  exact congrArg (fun k => m.globals.insert ⟨z, k⟩ x) (Heap.hashOf_congr (hcells z))

/-- **A class has been made.** -/
theorem makesClass (h : m₀.Tracks Q W m) (hat : m₀.Faces Q W m f rest c s [.named .cls name])
    (hm : m.step = .ok done m') : ∃ z x, m.heap.hasContents name z = true ∧ m.heap.contains x = false ∧
      m.heap.Allocates m.roots (.cls { name := z }) x m'.heap ∧ m'.globals = m.globals ∧
      m'.stack = m.stack.push (.obj x) := by
  obtain ⟨heap, b, z, hcells, hcontents, ho₁, hconsumes, hconstant, hrun⟩ := hat.names h rfl hm
  obtain ⟨x, heap', halloc, rfl⟩ := Run.makeClass_inv hconsumes hconstant hcontents (Run.perform_inv hrun).2
  have ha := Heap.alloc_allocates (show heap.Tidy from ho₁.sane.heap.tidy)
    (.mk fun _ => { m with heap, frames := { f with ip := f.ip + 2 } :: rest }.roots) (.cls { name := z })
  have hroots : { m with heap, frames := { f with ip := f.ip + 2 } :: rest }.roots = m.roots := by
    simp [Machine.roots, Machine.handles, hat.frames]
  have hfresh := Heap.alloc_fresh (show heap.Tidy from ho₁.sane.heap.tidy)
    (.mk fun _ => { m with heap, frames := { f with ip := f.ip + 2 } :: rest }.roots) (.cls { name := z })
  change heap.alloc _ _ = _ at halloc
  rw [halloc] at ha hfresh
  refine ⟨z, x, (Heap.hasContents_congr (hcells z)).symm.trans hcontents, ?_, ?_, rfl, rfl⟩
  · rwa [Heap.contains, ← hcells]
  · rw [← hroots]
    exact ha.of_cells hcells

/-- **A class has got the methods of its superclass.** -/
theorem inherits (h : m₀.Tracks Q W m) (hat : m₀.Faces Q W m f rest c s [.op .inherit]) (hm : m.step = .ok done m') :
    ∃ super sub S C, 1 < m.stack.size ∧ m.stack[m.stack.size - 2]? = some (.obj super) ∧
      m.stack.back? = some (.obj sub) ∧ m.heap.cls super = .ok S ∧ m.heap.cls sub = .ok C ∧
      m'.heap.cls sub = .ok { C with methods := S.methods.addAll C.methods } ∧
      (∀ x ≠ sub, m'.heap.cell? x = m.heap.cell? x) ∧ m'.globals = m.globals ∧ m'.stack = m.stack.pop := by
  obtain ⟨g, ⟨mop, args⟩, heap, hg, hof, hi, hspells, hcells, ho₁, hconsumes, hrun⟩ := hat.performs h rfl
  rw [hrun] at hm
  obtain rfl : mop = .inherit := hspells.opcode
  obtain ⟨super, sub, S, C, hlt, hsuper, hsub, hS, hC, rfl⟩ := Run.inherit_inv (Run.perform_inv hm).2
  obtain ⟨bytes, hcell⟩ := Heap.cls_eq_ok_iff.1 hC
  have hreplace := Heap.cell?_replace hcell (.cls { C with methods := S.methods.addAll C.methods })
  refine ⟨super, sub, S, C, hlt, hsuper, hsub, (Heap.cls_congr (hcells _)).symm.trans hS,
    (Heap.cls_congr (hcells _)).symm.trans hC, ?_, fun x hx => ?_, rfl, rfl⟩
  · exact Heap.cls_of_cell? ((hreplace sub).trans (if_pos rfl))
  · exact ((hreplace x).trans (if_neg hx)).trans (hcells x)

/-- **A class has got a method.** -/
theorem makesMethod (h : m₀.Tracks Q W m) (hat : m₀.Faces Q W m f rest c s [.named .method name])
    (hm : m.step = .ok done m') : ∃ z x cls C, m.heap.hasContents name z = true ∧ 1 < m.stack.size ∧
      m.stack.back? = some (.obj x) ∧ m.stack[m.stack.size - 2]? = some (.obj cls) ∧ m.heap.cls cls = .ok C ∧
      m'.heap.cls cls = .ok { C with methods := C.methods.insert ⟨z, m.heap.hashOf z⟩ (.obj x) } ∧
      (∀ x ≠ cls, m'.heap.cell? x = m.heap.cell? x) ∧ m'.globals = m.globals ∧ m'.stack = m.stack.pop := by
  obtain ⟨heap, b, z, hcells, hcontents, ho₁, hconsumes, hconstant, hrun⟩ := hat.names h rfl hm
  obtain ⟨x, cls, C, hlt, hx, hcls, hC, rfl⟩ := Run.method_inv hconsumes hconstant hcontents (Run.perform_inv hrun).2
  obtain ⟨bytes, hcell⟩ := Heap.cls_eq_ok_iff.1 hC
  have hhash : heap.hashOf z = m.heap.hashOf z := Heap.hashOf_congr (hcells z)
  have hreplace := Heap.cell?_replace hcell
    (.cls { C with methods := C.methods.insert ⟨z, heap.hashOf z⟩ (.obj x) })
  refine ⟨z, x, cls, C, (Heap.hasContents_congr (hcells z)).symm.trans hcontents, hlt, hx, hcls,
    (Heap.cls_congr (hcells _)).symm.trans hC, ?_, fun x hx => ?_, rfl, rfl⟩
  · rw [← hhash]
    exact Heap.cls_of_cell? ((hreplace cls).trans (if_pos rfl))
  · exact ((hreplace x).trans (if_neg hx)).trans (hcells x)

end Faces

end Machine

end LoxMachine
