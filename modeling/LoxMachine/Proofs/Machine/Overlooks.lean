import LoxMachine.Proofs.Heap.Filled
import LoxMachine.Proofs.Heap.History
import LoxMachine.Proofs.Machine.Soundness

/-!
# Actions that do not look at captured variables

* `Machine.veil f opened`: the machine in which every captured variable `u` has the value `f u`, and
  `opened` are those that are on the stack.
* `Run.Overlooks f opened x m`: the action `x` does the same on the machine `m` and on its veiled form.
* `Overlooking`: actions that make no objects do so on every machine. `Reading` are those among them
  that leave the stack and the heap as they are.
* `Machine.Covers f opened m`: the values that `f` gives are those that the variables have, so that a
  collection keeps the same objects, and actions that make objects overlook too.
-/

namespace LoxMachine

namespace Machine

/-- The machine with other values in its captured variables. -/
def veil (f : Handle → Value) (opened : List Handle) (m : Machine) : Machine :=
  { m with heap := m.heap.fill f, openUpvalues := opened }

variable {m m' m'' : Machine} {f : Handle → Value} {opened : List Handle}

/-- Captured variables have neither been made nor changed. -/
structure Follows (m m' : Machine) : Prop where
  opened : m'.openUpvalues = m.openUpvalues
  upvalues : ∀ {u : Handle} {cell : Cell}, m'.heap.cell? u = some cell →
    cell.object.kind = .upvalue → m.heap.cell? u = some cell
  billed : m.heap.Billed → m'.heap.Billed

namespace Follows

theorem of_heap (hopen : m'.openUpvalues = m.openUpvalues) (hheap : m'.heap = m.heap) :
    m.Follows m' :=
  ⟨hopen, fun hc _ => by rwa [hheap] at hc, fun hb => by rwa [hheap]⟩

theorem trans (h : m.Follows m') (h' : m'.Follows m'') : m.Follows m'' :=
  ⟨h'.opened.trans h.opened, fun hc hk => h.upvalues (h'.upvalues hc hk) hk,
    fun hb => h'.billed (h.billed hb)⟩

end Follows

/-- The values that `f` gives to the captured variables are those that they have, and `opened` are
those on the stack. -/
structure Covers (f : Handle → Value) (opened : List Handle) (m : Machine) : Prop where
  tidy : m.heap.Tidy
  closed : ∀ {u : Handle} {v : Value} {bytes : Nat},
    m.heap.cell? u = some ⟨.upvalue (.closed v), bytes⟩ → v = f u
  stacked : ∀ {u : Handle} {slot : Nat}, m.heap.OnStack u slot → m.stack[slot]? = some (f u)
  listed : ∀ u, u ∈ opened ↔ u ∈ m.openUpvalues

/-- The same heap with a stack that has the same values in the slots of captured variables. -/
theorem Covers.stack_to (h : m.Covers f opened) (hheap : m'.heap = m.heap)
    (hopen : m'.openUpvalues = m.openUpvalues)
    (hstack : ∀ u slot, m.heap.OnStack u slot → m'.stack[slot]? = m.stack[slot]?) :
    m'.Covers f opened := by
  refine ⟨hheap ▸ h.tidy, fun hc => ?_, fun {u slot} hs => ?_, fun u => by rw [hopen, h.listed]⟩
  · rw [hheap] at hc
    exact h.closed hc
  · rw [hheap] at hs
    rw [hstack u slot hs, h.stacked hs]

/-- The roots of a collection are the same. -/
theorem Covers.fills (h : m.Covers f opened) (handles : List Handle) :
    m.heap.Fills f (handles ++ m.roots) (handles ++ (m.veil f opened).roots) := by
  refine ⟨fun x => ?_, fun u v bytes hc => h.closed hc, fun u slot bytes r hc hr => ?_⟩
  · rw [List.mem_append, List.mem_append, mem_roots, mem_roots]
    change _ ∨ _ ∨ _ ∨ x ∈ opened ∨ _ ↔ _
    rw [h.listed]
    rfl
  · refine List.mem_append_right _ (mem_roots.2 (Or.inl ?_))
    rw [← hr]
    exact Array.mem_of_getElem? (h.stacked ⟨bytes, hc⟩)

end Machine

namespace Run

open Machine (Follows Covers)

variable {α β : Type} {x : Run α} {g : α → Run β} {m m' : Machine} {f : Handle → Value}
  {opened : List Handle}

/-- The action does the same when the captured variables have other values, and it neither makes nor
changes one of them. -/
def Overlooks (f : Handle → Value) (opened : List Handle) (x : Run α) (m : Machine) : Prop :=
  match x m with
  | .ok a m' => x (m.veil f opened) = .ok a (m'.veil f opened) ∧ m.Follows m'
  | .error e m' => x (m.veil f opened) = .error e (m'.veil f opened)

theorem Overlooks.bind (hx : Overlooks f opened x m)
    (hg : ∀ a m', x m = .ok a m' → Overlooks f opened (g a) m') :
    Overlooks f opened (x >>= g) m := by
  unfold Overlooks at hx
  cases hm : x m with
  | error e m' =>
    rw [hm] at hx
    have hleft : (x >>= g) m = .error e m' := by simp [Bind.bind, EStateM.bind, hm]
    unfold Overlooks
    rw [hleft]
    simp [Bind.bind, EStateM.bind, hx]
  | ok a m' =>
    rw [hm] at hx
    obtain ⟨hx, hfollows⟩ := hx
    have hleft : (x >>= g) m = g a m' := by simp [Bind.bind, EStateM.bind, hm]
    have hright : (x >>= g) (m.veil f opened) = g a (m'.veil f opened) := by
      simp [Bind.bind, EStateM.bind, hx]
    have hnext := hg a m' hm
    unfold Overlooks at hnext ⊢
    rw [hleft, hright]
    cases hgm : g a m' with
    | error e m'' =>
      rw [hgm] at hnext
      exact hnext
    | ok b m'' =>
      rw [hgm] at hnext
      exact ⟨hnext.1, hfollows.trans hnext.2⟩

/-- The action overlooks captured variables on every machine. -/
class Overlooking (x : Run α) : Prop where
  overlooks : ∀ f opened m, Overlooks f opened x m

/-- The action overlooks captured variables and leaves the heap and the stack as they are. -/
class Reading (x : Run α) : Prop extends Overlooking x where
  same : ∀ {m a m'}, x m = .ok a m' →
    m'.heap = m.heap ∧ m'.stack = m.stack ∧ m'.openUpvalues = m.openUpvalues

/-! ## Rules -/

theorem Overlooking.bind [Overlooking x] (hg : ∀ a, Overlooking (g a)) : Overlooking (x >>= g) :=
  ⟨fun f opened m => (Overlooking.overlooks f opened m).bind fun a m' _ =>
    (hg a).overlooks f opened m'⟩

instance [Overlooking x] [hg : ∀ a, Overlooking (g a)] : Overlooking (x >>= g) := Overlooking.bind hg

theorem Reading.bind [hx : Reading x] (hg : ∀ a, Reading (g a)) : Reading (x >>= g) where
  toOverlooking := Overlooking.bind fun a => (hg a).toOverlooking
  same := by
    intro m b m'' h
    cases hm : x m with
    | error e m' => simp [Bind.bind, EStateM.bind, hm] at h
    | ok a m' =>
      have h' : g a m' = .ok b m'' := by simpa [Bind.bind, EStateM.bind, hm] using h
      obtain ⟨hheap, hstack, hopen⟩ := hx.same hm
      obtain ⟨hheap', hstack', hopen'⟩ := (hg a).same h'
      exact ⟨hheap'.trans hheap, hstack'.trans hstack, hopen'.trans hopen⟩

instance [Reading x] [hg : ∀ a, Reading (g a)] : Reading (x >>= g) := Reading.bind hg

/-- An action that leaves the machine as it is. -/
theorem Reading.of_same (hsame : ∀ {m a m'}, x m = .ok a m' → m' = m)
    (hveil : ∀ f opened m, x (m.veil f opened) = match x m with
      | .ok a _ => .ok a (m.veil f opened)
      | .error e m' => .error e (m'.veil f opened)) : Reading x where
  overlooks f opened m := by
    have h := hveil f opened m
    unfold Overlooks
    cases hm : x m with
    | error e m' =>
      rw [hm] at h
      exact h
    | ok a m' =>
      obtain rfl := hsame hm
      rw [hm] at h
      exact ⟨h, .of_heap rfl rfl⟩
  same h := by
    rw [hsame h]
    exact ⟨rfl, rfl, rfl⟩

instance (a : α) : Reading (pure a : Run α) :=
  .of_same (fun h => by cases h; rfl) fun _ _ _ => rfl

instance (e : RuntimeError) : Reading (fail e : Run α) :=
  .of_same (fun h => by cases h) fun _ _ _ => rfl

instance {p : Prop} [Decidable p] {y : Run α} [hx : Overlooking x] [hy : Overlooking y] :
    Overlooking (if p then x else y) := by
  by_cases hp : p
  · rw [if_pos hp]
    exact hx
  · rw [if_neg hp]
    exact hy

instance {p : Prop} [Decidable p] {y : Run α} [hx : Reading x] [hy : Reading y] :
    Reading (if p then x else y) := by
  by_cases hp : p
  · rw [if_pos hp]
    exact hx
  · rw [if_neg hp]
    exact hy

/-- The state is read, but not its captured variables. -/
theorem Overlooking.get {g : Machine → Run β} (hveil : ∀ f opened m, g (m.veil f opened) = g m)
    (hg : ∀ m, Overlooking (g m)) : Overlooking (MonadState.get >>= g) where
  overlooks f opened m := by
    have h := (hg m).overlooks f opened m
    unfold Overlooks at h ⊢
    change match g m m with
      | .ok a m' => g (m.veil f opened) (m.veil f opened) = .ok a (m'.veil f opened) ∧ m.Follows m'
      | .error e m' => g (m.veil f opened) (m.veil f opened) = .error e (m'.veil f opened)
    rw [hveil]
    exact h

theorem Reading.get {g : Machine → Run β} (hveil : ∀ f opened m, g (m.veil f opened) = g m)
    (hg : ∀ m, Reading (g m)) : Reading (MonadState.get >>= g) where
  toOverlooking := .get hveil fun m => (hg m).toOverlooking
  same {m} _ _ h := (hg m).same h

/-- The state is changed, but neither its heap nor its captured variables. -/
theorem Overlooking.modifyGet {g : Machine → α × Machine}
    (hveil : ∀ f opened m, g (m.veil f opened) = ((g m).1, (g m).2.veil f opened))
    (hg : ∀ m, (g m).2.heap = m.heap ∧ (g m).2.openUpvalues = m.openUpvalues) :
    Overlooking (MonadStateOf.modifyGet g : Run α) where
  overlooks f opened m := by
    refine ⟨?_, .of_heap (hg m).2 (hg m).1⟩
    change EStateM.Result.ok (g (m.veil f opened)).1 (g (m.veil f opened)).2 = _
    rw [hveil]

theorem Overlooking.modify {g : Machine → Machine}
    (hveil : ∀ f opened m, g (m.veil f opened) = (g m).veil f opened)
    (hg : ∀ m, (g m).heap = m.heap ∧ (g m).openUpvalues = m.openUpvalues) :
    Overlooking (modify g : Run Unit) :=
  .modifyGet (fun f opened m => by rw [hveil]) hg

/-- The calls are changed. -/
theorem Reading.modify {g : Machine → Machine}
    (hveil : ∀ f opened m, g (m.veil f opened) = (g m).veil f opened)
    (hg : ∀ m, (g m).heap = m.heap ∧ (g m).stack = m.stack ∧
      (g m).openUpvalues = m.openUpvalues) : Reading (modify g : Run Unit) where
  toOverlooking := .modify hveil fun m => ⟨(hg m).1, (hg m).2.2⟩
  same h := by
    cases h
    exact hg _

/-! ## The stack -/

instance (v : Value) : Overlooking (push v) := by
  unfold push
  have := Overlooking.modify (g := fun m => { m with stack := m.stack.push v }) (fun _ _ _ => rfl)
    fun _ => ⟨rfl, rfl⟩
  refine .get (fun _ _ _ => rfl) fun m => ?_
  dsimp only
  infer_instance

instance : Overlooking pop := by
  unfold pop
  refine .get (fun _ _ _ => rfl) fun m => ?_
  cases m.stack.back? with
  | none => infer_instance
  | some v =>
    have := Overlooking.modify (g := fun m => { m with stack := m.stack.pop }) (fun _ _ _ => rfl)
      fun _ => ⟨rfl, rfl⟩
    exact Overlooking.bind fun _ => inferInstance

instance (index : Nat) : Reading (slot index) := by
  unfold slot
  refine .get (fun _ _ _ => rfl) fun m => ?_
  cases m.stack[index]? <;> infer_instance

instance (index : Nat) (v : Value) : Overlooking (setSlot index v) := by
  unfold setSlot
  have := Overlooking.modify (g := fun m => { m with stack := put m.stack index v })
    (fun _ _ _ => rfl) fun _ => ⟨rfl, rfl⟩
  exact .get (fun _ _ _ => rfl) fun m => inferInstance

instance (distance : Nat) : Reading (below distance) := by
  unfold below
  exact .get (fun _ _ _ => rfl) fun m => inferInstance

instance (distance : Nat) : Reading (peek distance) := by
  unfold peek
  infer_instance

instance (distance : Nat) (v : Value) : Overlooking (poke distance v) := by
  unfold poke
  infer_instance

instance (size : Nat) : Overlooking (truncate size) :=
  .modify (fun _ _ _ => rfl) fun _ => ⟨rfl, rfl⟩

/-! ## The heap -/

/-- The heap is read, but not the values of captured variables. -/
theorem Reading.look {r : Heap → Except Fault α} (hr : ∀ f heap, r (heap.fill f) = r heap) :
    Reading (look r) := by
  unfold Run.look
  refine .get (fun f opened m => ?_) fun m => ?_
  · have hfill : r (m.veil f opened).heap = r m.heap := hr f m.heap
    rw [hfill]
  · cases r m.heap with
    | ok a => exact inferInstanceAs (Reading (pure a))
    | error e => exact .of_same (fun h => by cases h) fun _ _ _ => rfl

instance (h : Handle) : Reading (look (·.key h)) := .look fun f heap => heap.key_fill f h
instance (h : Handle) : Reading (look (·.contents h)) := .look fun f heap => heap.contents_fill f h
instance (h : Handle) : Reading (look (·.function h)) := .look fun f heap => heap.function_fill f h
instance (h : Handle) : Reading (look (·.closure h)) := .look fun f heap => heap.closure_fill f h
instance (h : Handle) : Reading (look (·.cls h)) := .look fun f heap => heap.cls_fill f h
instance (h : Handle) : Reading (look (·.inst h)) := .look fun f heap => heap.inst_fill f h
instance (h : Handle) : Reading (look (·.native h)) := .look fun f heap => heap.native_fill f h
instance (v : Value) : Reading (look (·.display v)) := .look fun f heap => heap.display_fill f v

instance (kind : ObjectKind) (v : Value) : Reading (asKind kind v) :=
  .look fun f heap => heap.asKind_fill f kind v

instance (kind : ObjectKind) (v : Value) (e : RuntimeError) : Reading (requireKind kind v e) := by
  unfold requireKind
  exact .bind fun h => by cases h <;> infer_instance

/-- An object that is no captured variable is changed. -/
theorem Overlooking.update {u : Heap → Except Fault Heap}
    (hfill : ∀ f heap, u (heap.fill f) = (u heap).map (Heap.fill f))
    (hu : ∀ heap heap', u heap = .ok heap' → ∃ h cell o, heap' = heap.replace h o ∧
      heap.cell? h = some cell ∧ o.kind ≠ .upvalue) : Overlooking (update u) where
  overlooks f opened m := by
    have hveil : u (m.veil f opened).heap = (u m.heap).map (Heap.fill f) := hfill f m.heap
    unfold Overlooks
    simp only [Run.update, hveil]
    cases hheap : u m.heap with
    | error e => rfl
    | ok heap =>
      refine ⟨rfl, rfl, fun {x cell} hc hk => ?_, fun hb => ?_⟩
      · obtain ⟨h, cell', o, rfl, hcell, ho⟩ := hu _ _ hheap
        change (m.heap.replace h o).cell? x = some cell at hc
        rw [Heap.cell?_replace hcell] at hc
        split at hc
        · cases hc
          exact absurd hk ho
        · exact hc
      · obtain ⟨h, cell', o, rfl, -⟩ := hu _ _ hheap
        exact hb.replace h o

instance (h : Handle) (key : Key) (v : Value) : Overlooking (update (·.setField h key v)) := by
  refine .update (fun f heap => heap.setField_fill f h key v) fun heap heap' hset => ?_
  unfold Heap.setField at hset
  cases hi : heap.inst h with
  | error e => simp [hi, bind, Except.bind] at hset
  | ok i =>
    rw [hi] at hset
    cases hset
    obtain ⟨bytes, hc⟩ := Heap.inst_eq_ok_iff.1 hi
    exact ⟨h, _, _, rfl, hc, by simp [Object.kind]⟩

theorem cls_methods_replace {heap : Heap} {h : Handle} {c : Class} (methods : Table)
    (hc : heap.cls h = .ok c) : ∃ h' cell o,
      heap.replace h (.cls { c with methods }) = heap.replace h' o ∧
        heap.cell? h' = some cell ∧ o.kind ≠ .upvalue := by
  obtain ⟨bytes, hcell⟩ := Heap.cls_eq_ok_iff.1 hc
  exact ⟨h, _, _, rfl, hcell, by simp [Object.kind]⟩

instance (h : Handle) (key : Key) (v : Value) : Overlooking (update (·.setMethod h key v)) := by
  refine .update (fun f heap => heap.setMethod_fill f h key v) fun heap heap' hset => ?_
  unfold Heap.setMethod at hset
  cases hc : heap.cls h with
  | error e => simp [hc, bind, Except.bind] at hset
  | ok c =>
    rw [hc] at hset
    cases hset
    exact cls_methods_replace _ hc

instance (super sub : Handle) : Overlooking (update (·.inheritMethods super sub)) := by
  refine .update (fun f heap => heap.inheritMethods_fill f super sub) fun heap heap' hset => ?_
  unfold Heap.inheritMethods at hset
  cases hs : heap.cls super with
  | error e => simp [hs, bind, Except.bind] at hset
  | ok s =>
    cases hc : heap.cls sub with
    | error e => simp [hs, hc, bind, Except.bind] at hset
    | ok c =>
      rw [hs, hc] at hset
      cases hset
      exact cls_methods_replace _ hc

/-! ## Frames and operands -/

instance : Reading frame := by
  unfold frame
  refine .get (fun _ _ _ => rfl) fun m => ?_
  cases m.frames <;> infer_instance

instance (ip : Nat) : Reading (jumpTo ip) := by
  refine .modify (fun f opened m => ?_) fun m => ?_
  · obtain ⟨heap, stack, frames, globals, openUpvalues, initName, sink, clock, nativeCalls⟩ := m
    cases frames <;> rfl
  · cases m.frames <;> exact ⟨rfl, rfl, rfl⟩

instance (fr : Frame) : Reading (runningChunk fr) := by
  unfold runningChunk
  infer_instance

instance : Reading readByte := by
  unfold readByte
  refine .bind fun fr => .bind fun c => ?_
  cases c.read8 fr.ip <;> infer_instance

instance : Reading readDistance := by
  unfold readDistance
  refine .bind fun fr => .bind fun c => ?_
  cases c.read16 fr.ip <;> infer_instance

instance : Reading readOpcode := by
  unfold readOpcode
  refine .bind fun byte => ?_
  cases Opcode.ofByte? byte <;> infer_instance

instance : Reading readConstant := by
  unfold readConstant
  refine .bind fun index => .bind fun fr => .bind fun c => ?_
  cases c.constants[index.toNat]? <;> infer_instance

instance (kind : ObjectKind) : Reading (readObject kind) := by
  unfold readObject
  refine .bind fun index => .bind fun fr => .bind fun c => ?_
  cases c.constants[index.toNat]? <;> infer_instance

instance : Reading readName := inferInstanceAs (Reading (readObject .string))

instance (index : UInt8) : Reading (frameUpvalue index) := by
  unfold frameUpvalue
  refine .bind fun fr => .bind fun c => ?_
  cases c.upvalues[index.toNat]? <;> infer_instance

/-! ## Instructions that make no objects -/

instance : Overlooking getGlobal := by
  unfold getGlobal
  refine .bind fun name => .bind fun key => .get (fun _ _ _ => rfl) fun m => ?_
  cases m.globals.get? key <;> infer_instance

instance : Overlooking defineGlobal := by
  unfold defineGlobal
  refine .bind fun name => .bind fun v => .bind fun key => ?_
  have := Overlooking.modify (g := fun m => { m with globals := m.globals.insert key v })
    (fun _ _ _ => rfl) fun _ => ⟨rfl, rfl⟩
  infer_instance

instance : Overlooking setGlobal := by
  unfold setGlobal
  refine .bind fun name => .bind fun key => .bind fun v => ?_
  have := Overlooking.modifyGet (g := fun m =>
    ((m.globals.set key v).1, { m with globals := (m.globals.set key v).2 })) (fun _ _ _ => rfl)
    fun _ => ⟨rfl, rfl⟩
  have := Overlooking.modify (g := fun m => { m with globals := (m.globals.delete key).2 })
    (fun _ _ _ => rfl) fun _ => ⟨rfl, rfl⟩
  exact Overlooking.bind fun isNew => inferInstance

instance (cls name : Handle) : Reading (findMethod cls name) := by
  unfold findMethod
  refine .bind fun c => .bind fun key => ?_
  cases c.methods.get? key <;> infer_instance

instance (target name : Handle) : Reading (fieldOrClass target name) := by
  unfold fieldOrClass
  infer_instance

instance : Overlooking setProperty := by
  unfold setProperty
  infer_instance

instance : Overlooking popClass := by
  unfold popClass
  infer_instance

instance : Overlooking equal := by
  unfold equal
  infer_instance

instance : Overlooking popNumbers := by
  unfold popNumbers
  refine .bind fun a => .bind fun b => ?_
  cases a <;> cases b <;> infer_instance

instance (lt : Number → Number → Bool) : Overlooking (compare lt) := by
  unfold compare
  infer_instance

instance (op : Number → Number → Number) : Overlooking (arithmetic op) := by
  unfold arithmetic
  infer_instance

instance : Overlooking not := by
  unfold not
  infer_instance

instance : Overlooking negate := by
  unfold negate
  refine .bind fun v => ?_
  cases v <;> infer_instance

instance : Overlooking print := by
  unfold print
  refine .bind fun v => .bind fun text => ?_
  have := Overlooking.modifyGet (g := fun m =>
    ((m.sink.write (text ++ "\n")).1, { m with sink := (m.sink.write (text ++ "\n")).2 }))
    (fun _ _ _ => rfl) fun _ => ⟨rfl, rfl⟩
  exact Overlooking.bind fun accepted => inferInstance

instance : Overlooking jump := by
  unfold jump
  infer_instance

instance : Overlooking jumpIfFalse := by
  unfold jumpIfFalse
  infer_instance

instance : Overlooking jumpBack := by
  unfold jumpBack
  infer_instance

instance (closure : Handle) (count : Nat) : Overlooking (call closure count) := by
  unfold call
  refine .bind fun c => .bind fun fn => ?_
  have := fun base => Overlooking.modify (g := fun m : Machine =>
    { m with frames := { closure, function := c.function, base } :: m.frames })
    (fun _ _ _ => rfl) fun _ => ⟨rfl, rfl⟩
  have hrest : Overlooking (MonadState.get >>= fun m : Machine => (do
      if maxFrames ≤ m.frames.length then fail .stackOverflow
      let needed := wrap (count + 1)
      if m.stack.size < needed then fail .stackUnderflow
      let base := m.stack.size - needed
      modify fun m => { m with frames := { closure, function := c.function, base } :: m.frames } :
        Run Unit)) := by
    refine .get (fun _ _ _ => rfl) fun m => ?_
    dsimp only
    infer_instance
  dsimp only at hrest ⊢
  infer_instance

instance (h : Handle) (count : Nat) : Overlooking (callNative h count) := by
  unfold callNative
  refine .bind fun native => .get (fun _ _ _ => rfl) fun m => ?_
  have := Overlooking.modify (g := fun m => { m with nativeCalls := m.nativeCalls + 1 })
    (fun _ _ _ => rfl) fun _ => ⟨rfl, rfl⟩
  dsimp only
  infer_instance

instance (cls name : Handle) (count : Nat) : Overlooking (invokeFromClass cls name count) := by
  unfold invokeFromClass
  infer_instance

instance : Overlooking superInvoke := by
  unfold superInvoke
  infer_instance

instance : Overlooking inherit := by
  unfold inherit
  infer_instance

instance : Overlooking method := by
  unfold method
  exact .bind fun name => .bind fun v => .bind fun w => .bind fun cls => inferInstance

/-! ## Instructions that make objects -/

end Run

/-- An action that reads, before one that makes an object. -/
theorem Machine.Covers.bind {α β : Type} {x : Run α} {g : α → Run β} {m : Machine}
    {f : Handle → Value} {opened : List Handle} [hx : Run.Reading x] (hc : m.Covers f opened)
    (hg : ∀ a m', x m = .ok a m' → m'.Covers f opened → Run.Overlooks f opened (g a) m') :
    Run.Overlooks f opened (x >>= g) m := by
  refine (Run.Overlooking.overlooks f opened m).bind fun a m' hm => hg a m' hm ?_
  obtain ⟨hheap, hstack, hopen⟩ := hx.same hm
  exact hc.stack_to hheap hopen fun _ slot _ => by rw [hstack]

namespace Run

open Machine (Covers)

variable {α β : Type} {g : α → Run β} {m : Machine} {f : Handle → Value} {opened : List Handle}

/-- **An object is made** that is no captured variable. -/
theorem alloc_overlooks (hc : m.Covers f opened) {o : Object} (ho : o.kind ≠ .upvalue) :
    Overlooks f opened (alloc o) m := by
  have ha := Heap.alloc_allocates hc.tidy (.mk fun _ => m.roots) o
  have halloc := Heap.alloc_fill_of_kind hc.tidy (.mk fun _ => m.roots)
    (.mk fun _ => (m.veil f opened).roots) ho (hc.fills o.references)
  refine ⟨?_, rfl, fun {u cell} hu hk => ?_, fun hb => hb.alloc _ o⟩
  · exact congrArg (fun p : Handle × Heap => EStateM.Result.ok p.1
      { m.veil f opened with heap := p.2 }) halloc
  · change (m.heap.alloc (.mk fun _ => m.roots) o).2.cell? u = some cell at hu
    refine ha.old ?_ hu
    rintro rfl
    rw [ha.new] at hu
    cases hu
    exact ho hk

theorem intern_overlooks (hc : m.Covers f opened) (s : String) :
    Overlooks f opened (intern s) m := by
  have hfills : m.heap.Fills f (Thunk.mk fun _ => m.roots).get
      (Thunk.mk fun _ => (m.veil f opened).roots).get := hc.fills []
  have hintern := Heap.intern_fill hc.tidy hfills s
  refine ⟨?_, rfl, fun {u cell} hu hk => ?_, fun hb => hb.intern _ s⟩
  · exact congrArg (fun p : Handle × Heap => EStateM.Result.ok p.1
      { m.veil f opened with heap := p.2 }) hintern
  · change (m.heap.intern (.mk fun _ => m.roots) s).2.cell? u = some cell at hu
    rcases Heap.intern_spec hc.tidy (.mk fun _ => m.roots) s with ⟨-, heq⟩ | ⟨-, ha, -⟩
    · rwa [heq] at hu
    · refine ha.old ?_ hu
      rintro rfl
      rw [ha.new] at hu
      cases hu
      cases hk

theorem bindMethod_overlooks (hc : m.Covers f opened) (cls name : Handle) :
    Overlooks f opened (bindMethod cls name) m := by
  unfold bindMethod
  refine hc.bind fun method m₁ _ hc => hc.bind fun receiver m₂ _ hc => ?_
  exact (alloc_overlooks hc (by simp [Object.kind])).bind fun bound m₃ _ =>
    Overlooking.overlooks f opened m₃

theorem getProperty_overlooks (hc : m.Covers f opened) : Overlooks f opened getProperty m := by
  unfold getProperty
  refine hc.bind fun name m₁ _ hc => hc.bind fun v m₂ _ hc => hc.bind fun target m₃ _ hc =>
    hc.bind fun found m₄ _ hc => ?_
  obtain ⟨_ | v, cls⟩ := found
  · exact bindMethod_overlooks hc cls name
  · exact Overlooking.overlooks f opened m₄

theorem concatenate_overlooks (hc : m.Covers f opened) (a b : Handle) :
    Overlooks f opened (concatenate a b) m := by
  unfold concatenate
  refine hc.bind fun s m₁ _ hc => hc.bind fun t m₂ _ hc => ?_
  exact (intern_overlooks hc _).bind fun h m₃ _ => Overlooking.overlooks f opened m₃

theorem add_overlooks (hc : m.Covers f opened) : Overlooks f opened add m := by
  unfold add
  refine hc.bind fun b m₁ _ hc => hc.bind fun a m₂ _ hc => ?_
  split
  · exact Overlooking.overlooks f opened m₂
  · refine hc.bind fun s m₃ _ hc => hc.bind fun t m₄ _ hc => ?_
    split
    · exact concatenate_overlooks hc _ _
    · exact Overlooking.overlooks f opened m₄

theorem makeClass_overlooks (hc : m.Covers f opened) : Overlooks f opened makeClass m := by
  unfold makeClass
  refine hc.bind fun name m₁ _ hc => ?_
  exact (alloc_overlooks hc (by simp [Object.kind])).bind fun h m₂ _ =>
    Overlooking.overlooks f opened m₂

theorem instantiate_overlooks (hc : m.Covers f opened) (cls : Handle) (count : Nat) :
    Overlooks f opened (instantiate cls count) m := by
  unfold instantiate
  refine (alloc_overlooks hc (by simp [Object.kind])).bind fun target m₁ _ => ?_
  refine (Overlooking.bind fun _ => Overlooking.bind fun c => Overlooking.get (fun _ _ _ => rfl)
    fun m => Overlooking.bind fun key => ?_).overlooks f opened m₁
  dsimp only
  cases c.methods.get? key with
  | none => exact Overlooking.bind fun init => by cases init <;> infer_instance
  | some v => exact Overlooking.bind fun init => by cases init <;> infer_instance

theorem get_bind {ε σ β : Type} (g : σ → EStateM ε σ β) (s : σ) : (get >>= g) s = g s s := rfl

theorem look_ok {q : Heap → Except Fault α} {a : α} (ha : q m.heap = .ok a) :
    look q m = .ok a m := by
  unfold look
  rw [get_bind, ha]
  rfl

theorem look_error {q : Heap → Except Fault α} {e : Fault} (he : q m.heap = .error e) :
    look q m = .error (.fault e) m := by
  unfold look
  rw [get_bind, he]
  rfl

theorem look_bind_ok {q : Heap → Except Fault α} {a : α} (ha : q m.heap = .ok a) :
    (look q >>= g) m = g a m := by
  simp only [bind, EStateM.bind, look_ok ha]

theorem look_bind_error {q : Heap → Except Fault α} {e : Fault} (he : q m.heap = .error e) :
    (look q >>= g) m = .error (.fault e) m := by
  simp only [bind, EStateM.bind, look_error he]

theorem frame_ok {f : Frame} {rest : List Frame} (hf : m.frames = f :: rest) :
    frame m = .ok f m := by
  unfold frame
  rw [get_bind, hf]
  rfl

/-- Something is read that may differ in the values of captured variables, which nothing depends
on. -/
theorem look_overlooks {r : Heap → Except Fault α} {k : α → α}
    (hr : r (m.heap.fill f) = (r m.heap).map k)
    (hg : ∀ a, g (k a) = g a ∧ Overlooks f opened (g a) m) :
    Overlooks f opened (look r >>= g) m := by
  have hveil : r (m.veil f opened).heap = (r m.heap).map k := hr
  cases ha : r m.heap with
  | error e =>
    rw [ha] at hveil
    unfold Overlooks
    rw [look_bind_error ha]
    exact look_bind_error hveil
  | ok a =>
    rw [ha] at hveil
    obtain ⟨hk, hnext⟩ := hg a
    unfold Overlooks at hnext ⊢
    rw [look_bind_ok ha, look_bind_ok hveil, hk]
    exact hnext

/-- **A value is called.** What is called is told by its kind only. -/
theorem callValue_overlooks (hc : m.Covers f opened) (callee : Value) (count : Nat) :
    Overlooks f opened (callValue callee count) m := by
  unfold callValue
  cases callee with
  | obj h =>
    refine look_overlooks (m.heap.object_fill f h) fun o => ⟨by cases o <;> rfl, ?_⟩
    cases o with
    | cls c => exact instantiate_overlooks hc h count
    | _ => exact Overlooking.overlooks f opened m
  | _ => exact Overlooking.overlooks f opened m

theorem callInstruction_overlooks (hc : m.Covers f opened) :
    Overlooks f opened callInstruction m := by
  unfold callInstruction
  exact hc.bind fun count m₁ _ hc => hc.bind fun callee m₂ _ hc => callValue_overlooks hc _ _

/-- The superclass is popped before the bound method is made, so it must not be a captured
variable. -/
theorem getSuper_overlooks (hc : m.Covers f opened)
    (hslots : ∀ u slot, m.heap.OnStack u slot → slot + 1 < m.stack.size) :
    Overlooks f opened getSuper m := by
  unfold getSuper popClass
  refine hc.bind fun name m₁ hm₁ hc₁ => ?_
  obtain ⟨hheap, hstack, -⟩ := Reading.same hm₁
  rw [bind_assoc]
  refine (Overlooking.overlooks f opened m₁).bind fun v m₂ hm₂ => ?_
  obtain rfl : m₂ = { m₁ with stack := m₁.stack.pop } := by
    unfold pop at hm₂
    rw [get_bind] at hm₂
    cases hback : m₁.stack.back? with
    | none =>
      rw [hback] at hm₂
      cases hm₂
    | some v =>
      rw [hback] at hm₂
      cases hm₂
      rfl
  have hc₂ : { m₁ with stack := m₁.stack.pop }.Covers f opened := by
    refine hc₁.stack_to rfl rfl fun u slot hu => ?_
    have hlt := hslots u slot (hheap ▸ hu)
    rw [Array.getElem?_pop, if_pos (by rw [hstack]; omega)]
  exact hc₂.bind fun cls m₃ _ hc₃ => bindMethod_overlooks hc₃ cls name

/-- The value of a field takes the place of the receiver before it is called, so the receiver must
not be a captured variable. -/
theorem invoke_overlooks {live : Handle → Prop} {k : Call} {outer : List Call} {marks : Shape}
    {n : Nat} {i b : UInt8} (hc : m.Covers f opened)
    (h : m.Busy live k outer marks (n + (b.toNat + 1))) (hb : k.Reads [i, b])
    (hi : k.pool.constants[i.toNat]? = some .string)
    (hslots : ∀ u slot, m.heap.OnStack u slot → slot < n) : Overlooks f opened invoke m := by
  unfold invoke
  refine hc.bind fun name m₁ hm₁ hc₁ => ?_
  obtain ⟨hheap₁, hstack₁, -⟩ := Reading.same hm₁
  have hname := readName_meets h hb hi
  unfold Meets Ends at hname
  rw [hm₁] at hname
  refine hc₁.bind fun b' m₂ hm₂ hc₂ => ?_
  obtain ⟨hheap₂, hstack₂, -⟩ := Reading.same hm₂
  have hbyte := readByte_meets hname.2.2 hb.tail
  unfold Meets Ends at hbyte
  rw [hm₂] at hbyte
  obtain rfl := hbyte.1
  refine hc₂.bind fun receiver m₃ hm₃ hc₃ => hc₃.bind fun target m₄ hm₄ hc₄ =>
    hc₄.bind fun found m₅ hm₅ hc₅ => ?_
  obtain ⟨hheap₃, hstack₃, -⟩ := Reading.same hm₃
  obtain ⟨hheap₄, hstack₄, -⟩ := Reading.same hm₄
  obtain ⟨hheap₅, hstack₅, -⟩ := Reading.same hm₅
  obtain ⟨_ | v, cls⟩ := found
  · exact Overlooking.overlooks f opened m₅
  refine (Overlooking.overlooks f opened m₅).bind fun _ m₆ hm₆ => ?_
  -- the slot of the receiver is above those of captured variables
  have hsize : m₅.stack.size = n + (b'.toNat + 1) := by
    rw [hstack₅, hstack₄, hstack₃, hstack₂, hstack₁, h.size_eq]
  obtain rfl : m₆ = { m₅ with stack := put m₅.stack n v } := by
    have hindex : m₅.stack.size - 1 - b'.toNat = n := by omega
    have hpoke : poke b'.toNat v m₅ = .ok () { m₅ with stack := put m₅.stack n v } := by
      unfold poke below
      change ((if b'.toNat < m₅.stack.size then pure (m₅.stack.size - 1 - b'.toNat)
        else fail .stackUnderflow : Run Nat) >>= fun i => setSlot i v) m₅ = _
      rw [if_pos (by omega), pure_bind, hindex]
      unfold setSlot
      change (if n < m₅.stack.size then _ else _ : Run Unit) m₅ = _
      rw [if_pos (by omega)]
      rfl
    rw [hpoke] at hm₆
    cases hm₆
    rfl
  have hc₆ : { m₅ with stack := put m₅.stack n v }.Covers f opened := by
    refine hc₅.stack_to rfl rfl fun u slot hu => ?_
    rw [hheap₅, hheap₄, hheap₃, hheap₂, hheap₁] at hu
    exact getElem?_put_ne _ _ (hslots u slot hu).ne'
  exact callValue_overlooks hc₆ v _

end Run

end LoxMachine
