import LoxMachine.Proofs.Machine.Fetching
import LoxMachine.Proofs.Machine.Holding

/-!
# Actions and the position in the code

Most actions look neither at the position in the code nor, when they read code, at the stack. So it does
not matter whether the operands of an instruction are read before or after such an action.

* `Machine.advanced`: the machine when a byte of code has been read.
* `Run.Ignores change x`: the action `x` does the same when the machine is changed before it and when it is
  changed afterwards.
* `Run.readByte_eq`, `Run.readName_ok`: reading an operand only goes on in the code.
* `Run.readByte_kept`: the code is the same in a heap in which what can be reached is kept.
-/

namespace LoxMachine

namespace Machine

/-- The machine when the running function has gone on by one byte. -/
def advanced (m : Machine) : Machine :=
  { m with frames := m.frames.modifyHead fun f => { f with ip := f.ip + 1 } }

theorem closures_advanced (m : Machine) :
    m.advanced.frames.map Frame.closure = m.frames.map Frame.closure := by
  unfold advanced
  cases m.frames <;> rfl

theorem roots_advanced (m : Machine) : m.advanced.roots = m.roots := by
  rw [roots, handles, List.map_reverse, closures_advanced, ← List.map_reverse]
  rfl

/-- Nothing that holds between two instructions depends on the position in the code. -/
theorem Sane.of_advanced {m : Machine} (hs : m.advanced.Sane) : m.Sane := by
  have hframes : ∀ f ∈ m.frames, ∃ f' ∈ m.advanced.frames, f'.closure = f.closure ∧ f'.function = f.function := by
    unfold advanced
    cases m.frames with
    | nil => exact nofun
    | cons f rest =>
      intro g hg
      rcases List.mem_cons.1 hg with rfl | hg
      · exact ⟨_, List.mem_cons_self, rfl, rfl⟩
      · exact ⟨g, List.mem_cons_of_mem _ hg, rfl, rfl⟩
  have hlength : m.advanced.frames.length = m.frames.length := List.length_modifyHead
  refine ⟨hs.heap, hs.size_le, hlength ▸ hs.length_le, hs.stack, fun f hf => ?_, hs.globals, hs.keyed,
    hs.opened, hs.initName⟩
  obtain ⟨f', hf', hclosure, hfunction⟩ := hframes f hf
  obtain ⟨c, bytes, hc, hcf⟩ := hs.frames f' hf'
  exact ⟨c, bytes, hclosure ▸ hc, hcf.trans hfunction⟩

end Machine

namespace Run

/-- An outcome in which the machine is changed. -/
def onMachine {α : Type} (f : Machine → Machine) :
    EStateM.Result Failure Machine α → EStateM.Result Failure Machine α
  | .ok a m => .ok a (f m)
  | .error e m => .error e (f m)

/-! ## Actions that ignore a change -/

/-- It does not matter whether the machine is changed before the action or after it. -/
class Ignores {α : Type} (change : Machine → Machine) (x : Run α) : Prop where
  commutes : ∀ m, x (change m) = onMachine change (x m)

/-- The change leaves the heap alone. -/
class HeapKept (change : Machine → Machine) : Prop where
  heap_eq : ∀ m, (change m).heap = m.heap

namespace Ignores

variable {α β : Type} {change : Machine → Machine} {x : Run α} {g : α → Run β} {values : List Value}

instance : HeapKept (·.holding values) := ⟨fun _ => rfl⟩

instance : HeapKept Machine.advanced := ⟨fun _ => rfl⟩

instance (a : α) : Ignores change (pure a : Run α) := ⟨fun _ => rfl⟩

instance (e : RuntimeError) : Ignores change (fail e : Run α) := ⟨fun _ => rfl⟩

theorem bind [hx : Ignores change x] (hg : ∀ a, Ignores change (g a)) : Ignores change (x >>= g) where
  commutes m := by
    have hcommutes := hx.commutes m
    cases hm : x m with
    | ok a m' =>
      rw [hm] at hcommutes
      rw [bind_of_ok hcommutes, bind_of_ok hm]
      exact (hg a).commutes m'
    | error e m' =>
      rw [hm] at hcommutes
      rw [bind_of_error hcommutes, bind_of_error hm]
      rfl

instance [Ignores change x] [hg : ∀ a, Ignores change (g a)] : Ignores change (x >>= g) := bind hg

instance [hc : HeapKept change] (q : Heap → Except Fault α) : Ignores change (look q) where
  commutes m := by
    have hheap := hc.heap_eq m
    cases hq : q m.heap with
    | ok a =>
      rw [look_ok hq, look_ok (hheap.symm ▸ hq)]
      rfl
    | error e =>
      rw [look_error hq, look_error (hheap.symm ▸ hq)]
      rfl

instance [HeapKept change] (kind : ObjectKind) (v : Value) (e : RuntimeError) :
    Ignores change (requireKind kind v e) := by
  unfold requireKind asKind
  refine bind fun found => ?_
  cases found <;> infer_instance

instance [HeapKept change] (target name : Handle) : Ignores change (fieldOrClass target name) := by
  unfold fieldOrClass
  infer_instance

instance [HeapKept change] (cls name : Handle) : Ignores change (findMethod cls name) := by
  unfold findMethod
  refine bind fun c => bind fun key => ?_
  cases c.methods.get? key <;> infer_instance

/-! ### The stack -/

instance : Ignores (·.holding values) frame where
  commutes m := by
    unfold frame
    rw [get_bind, get_bind]
    change (match m.frames with | f :: _ => (pure f : Run Frame) | [] => fail .noActiveFrame) _ =
      onMachine _ ((match m.frames with | f :: _ => (pure f : Run Frame) | [] => fail .noActiveFrame) m)
    cases m.frames <;> rfl

instance (ip : Nat) : Ignores (·.holding values) (jumpTo ip) where
  commutes m := by
    cases m with
    | mk heap stack frames globals openUpvalues initName sink clock nativeCalls =>
      cases frames <;> rfl

instance (f : Frame) : Ignores (·.holding values) (runningChunk f) := by
  unfold runningChunk
  infer_instance

instance : Ignores (·.holding values) readByte := by
  unfold readByte
  refine bind fun f => bind fun chunk => ?_
  cases chunk.read8 f.ip <;> infer_instance

instance (kind : ObjectKind) : Ignores (·.holding values) (readObject kind) := by
  unfold readObject
  refine bind fun index => bind fun f => bind fun chunk => ?_
  cases chunk.constants[index.toNat]? <;> infer_instance

instance : Ignores (·.holding values) readName := inferInstanceAs (Ignores _ (readObject .string))

/-! ### The position in the code -/

instance (index : Nat) : Ignores Machine.advanced (slot index) where
  commutes m := by
    rw [Cellular.slot_eq, Cellular.slot_eq]
    change (match m.stack[index]? with | some v => _ | none => _ : EStateM.Result _ _ _) = _
    cases m.stack[index]? <;> rfl

instance (distance : Nat) : Ignores Machine.advanced (below distance) where
  commutes m := by
    unfold below
    rw [get_bind, get_bind]
    change (if distance < m.stack.size then _ else _ : Run Nat) _ =
      onMachine _ ((if distance < m.stack.size then _ else _ : Run Nat) _)
    split <;> rfl

instance (distance : Nat) : Ignores Machine.advanced (peek distance) := by
  unfold peek
  infer_instance

instance : Ignores Machine.advanced pop where
  commutes m := by
    rw [Cellular.pop_eq, Cellular.pop_eq]
    change (match m.stack.back? with | some v => _ | none => _) = _
    cases m.stack.back? <;> rfl

instance (v : Value) : Ignores Machine.advanced (push v) where
  commutes m := by
    rw [Cellular.push_eq, Cellular.push_eq]
    change (if maxStack ≤ m.stack.size then _ else _) = _
    split <;> rfl

instance (o : Object) : Ignores Machine.advanced (alloc o) where
  commutes m := by
    have hroots : Machine.handles m.stack m.advanced.frames m.openUpvalues m.globals m.initName =
        Machine.handles m.stack m.frames m.openUpvalues m.globals m.initName := m.roots_advanced
    change EStateM.Result.ok
        (m.heap.alloc (.mk fun _ => Machine.handles m.stack m.advanced.frames m.openUpvalues m.globals m.initName)
          o).1
        ({ m with heap := (m.heap.alloc (.mk fun _ =>
          Machine.handles m.stack m.advanced.frames m.openUpvalues m.globals m.initName) o).2 }).advanced = _
    rw [hroots]
    rfl

instance (cls name : Handle) : Ignores Machine.advanced (bindMethod cls name) := by
  unfold bindMethod
  infer_instance

instance : Ignores Machine.advanced popClass := by
  unfold popClass
  infer_instance

end Ignores

/-! ## Reading operands -/

section Reading

variable {m m' : Machine} {x : Handle} {b : UInt8} {heap : Heap} {values : List Value}

theorem readByte_holding : readByte (m.holding values) = onMachine (·.holding values) (readByte m) :=
  @Ignores.commutes _ (·.holding values) readByte _ m

theorem readName_holding : readName (m.holding values) = onMachine (·.holding values) (readName m) :=
  @Ignores.commutes _ (·.holding values) readName _ m

theorem readByte_ok (h : readByte m = .ok b m') : m' = m.advanced := by
  obtain ⟨f, rest, hf, -, rfl⟩ := readByte_consumes.of_ok h
  simp [Machine.advanced, hf]

theorem readName_ok (h : readName m = .ok x m') : m' = m.advanced := by
  obtain ⟨i, ⟨f, rest, hf, -, rfl⟩, -⟩ := readName_consumes.of_ok h
  simp [Machine.advanced, hf]

/-- **The code is kept with everything else that can be reached.** -/
theorem readByte_kept (hs : m.Sane) (h : readByte m = .ok b m.advanced) (hk : m.heap.Keeps m.roots heap) :
    readByte { m with heap } = .ok b { m with heap }.advanced := by
  obtain ⟨f, rest, hf, ⟨g, hg, hholds⟩, -⟩ := readByte_consumes.of_ok h
  obtain ⟨g', bytes, hg', hreach⟩ := hs.function (hf ▸ List.mem_cons_self)
  cases hg.symm.trans (Heap.function_eq_ok_iff.2 ⟨bytes, hg'⟩)
  have hkept : heap.function f.function = .ok g := Heap.function_eq_ok_iff.2 ⟨bytes, (hk _ hreach).trans hg'⟩
  refine readByte_of_consumes ⟨f, rest, hf, ⟨g, hkept, hholds⟩, ?_⟩
  simp [Machine.advanced, hf]

end Reading

end Run

end LoxMachine
