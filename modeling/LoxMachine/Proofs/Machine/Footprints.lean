import LoxMachine.Proofs.Machine.Assembly
import LoxMachine.Proofs.Machine.Overlooks

/-!
# What actions of the machine are made of

Every instruction is put together from a few ways to change the machine. A relation between states that
respects those which an action uses holds between the state before it and the one in which it ends or fails.

* `Machine.Chains R`: doing nothing, and one thing after another, is respected. `Machine.Mild`, `Stacks`, `Enters`,
  `Counts`, `Makes`, `Interns`, `Alters`, `Opens`, `Defines`, `Prints` and `Records` say this of the ways to change
  a machine.
* `Run.Along R x`: the action `x` leads from any state to a related one. Its instances go through all actions
  of the machine, and ask for no more than an action needs.
-/

namespace LoxMachine

namespace Machine

/-- The relation is respected by doing nothing, and by one thing after another. -/
class Chains (R : Machine → Machine → Prop) : Prop where
  refl (m : Machine) : R m m
  trans {m₁ m₂ m₃ : Machine} : R m₁ m₂ → R m₂ m₃ → R m₁ m₃

/-- It is respected by going on in the code. -/
class Mild (R : Machine → Machine → Prop) : Prop extends Chains R where
  moves (m : Machine) {f : Frame} {rest : List Frame} (h : m.frames = f :: rest) (ip : Nat) :
    R m { m with frames := { f with ip } :: rest }

/-- It is respected by changes to the stack. -/
class Stacks (R : Machine → Machine → Prop) : Prop where
  stack (m : Machine) (stack : Array Value) : R m { m with stack }

/-- It is respected by beginning and ending calls. -/
class Enters (R : Machine → Machine → Prop) : Prop where
  frames (m : Machine) (frames : List Frame) : R m { m with frames }

/-- It is respected by counting calls of native functions. -/
class Counts (R : Machine → Machine → Prop) : Prop where
  nativeCalls (m : Machine) (nativeCalls : Nat) : R m { m with nativeCalls }

/-- It is respected by changes to the stack and the calls. -/
class Shifts (R : Machine → Machine → Prop) : Prop extends Mild R, Stacks R, Enters R, Counts R

/-- It is respected by making objects of a kind, other than strings. -/
class Makes (R : Machine → Machine → Prop) (kind : ObjectKind) : Prop where
  make (m : Machine) (o : Object) (h : o.kind = kind) (hkind : o.kind ≠ .string) :
    R m { m with heap := (m.heap.alloc (.mk fun _ => m.roots) o).2 }

/-- It is respected by making strings. -/
class Interns (R : Machine → Machine → Prop) : Prop where
  intern (m : Machine) (s : String) : R m { m with heap := (m.heap.intern (.mk fun _ => m.roots) s).2 }

/-- It is respected by changing objects of a kind. -/
class Alters (R : Machine → Machine → Prop) (kind : ObjectKind) : Prop where
  change {m : Machine} {x : Handle} {cell : Cell} (o : Object) (h : o.kind = kind)
    (hcell : m.heap.cell? x = some cell) (hkind : cell.object.kind = o.kind)
    (hmutable : o.kind.isFixed = false) : R m { m with heap := m.heap.replace x o }

/-- It is respected by changing the list of the captured variables that are on the stack. -/
class Opens (R : Machine → Machine → Prop) : Prop where
  opened (m : Machine) (opened : List Handle) : R m { m with openUpvalues := opened }

/-- It is respected by changing global variables. -/
class Defines (R : Machine → Machine → Prop) : Prop where
  globals (m : Machine) (globals : Table) : R m { m with globals }

/-- It is respected by output. -/
class Prints (R : Machine → Machine → Prop) : Prop where
  sink (m : Machine) (sink : Sink) : R m { m with sink }

/-- It is respected by reports on what is done. -/
class Records (R : Machine → Machine → Prop) : Prop where
  record (m : Machine) (e : Event) : R m { m with heap := m.heap.record e }

end Machine

namespace Run

open Machine

variable {α β : Type} {x : Run α} {g : α → Run β} {R : Machine → Machine → Prop} {m m' : Machine}

theorem leaves_ok {a : α} (h : x m = .ok a m') : x.leaves m = m' := by rw [leaves, h]

theorem leaves_error {e : Failure} (h : x m = .error e m') : x.leaves m = m' := by rw [leaves, h]

/-- The action leads from any state to a related one, whether it ends or fails. -/
class Along (R : Machine → Machine → Prop) (x : Run α) : Prop where
  along : ∀ m, R m (x.leaves m)

/-- What an action leads to, however it ends. -/
theorem Along.ends [h : Along R x] : Ends (fun _ m' => R m m') x m fun _ m' => R m m' := by
  have halong := h.along m
  unfold Ends
  unfold leaves at halong
  cases hx : x m with
  | ok a m' =>
    rw [hx] at halong
    exact halong
  | error e m' =>
    rw [hx] at halong
    exact halong

theorem Along.modifyGet {f : Machine → α × Machine} (hf : ∀ m, R m (f m).2) :
    Along R (MonadStateOf.modifyGet f : Run α) := ⟨hf⟩

theorem Along.modify {f : Machine → Machine} (hf : ∀ m, R m (f m)) : Along R (modify f : Run Unit) :=
  .modifyGet hf

/-! ## Reading -/

section Chains

variable [hR : Chains R]

instance (a : α) : Along R (pure a : Run α) := ⟨hR.refl⟩

instance (e : RuntimeError) : Along R (fail e : Run α) := ⟨hR.refl⟩

theorem Along.bind [hx : Along R x] (hg : ∀ a, Along R (g a)) : Along R (x >>= g) where
  along m := by
    have hfirst := hx.along m
    cases hm : x m with
    | error e m' =>
      have hbind : (x >>= g) m = .error e m' := by simp [Bind.bind, EStateM.bind, hm]
      rw [leaves_error hm] at hfirst
      rwa [leaves_error hbind]
    | ok a m' =>
      have hbind : (x >>= g).leaves m = (g a).leaves m' := by
        simp [leaves, Bind.bind, EStateM.bind, hm]
      rw [leaves_ok hm] at hfirst
      rw [hbind]
      exact hR.trans hfirst ((hg a).along m')

instance [Along R x] [hg : ∀ a, Along R (g a)] : Along R (x >>= g) := Along.bind hg

instance {q : Prop} [Decidable q] {y : Run α} [hx : Along R x] [hy : Along R y] :
    Along R (if q then x else y) := by
  split
  · exact hx
  · exact hy

instance : Along R (get : Run Machine) := ⟨hR.refl⟩

/-- What is done may depend on the state. -/
theorem Along.get {g : Machine → Run β} (hg : ∀ m, Along R (g m)) : Along R (MonadState.get >>= g) :=
  Along.bind hg

instance (q : Heap → Except Fault α) : Along R (look q) where
  along m := by
    cases hq : q m.heap with
    | ok a =>
      rw [leaves_ok (look_ok hq)]
      exact hR.refl m
    | error e =>
      rw [leaves_error (look_error hq)]
      exact hR.refl m

/-- A change that is not made if it is rejected. -/
theorem Along.update {u : Heap → Except Fault Heap}
    (hu : ∀ {m : Machine} {heap : Heap}, u m.heap = .ok heap → R m { m with heap }) :
    Along R (update u) where
  along m := by
    cases hq : u m.heap with
    | ok heap =>
      have hrun : (Run.update u) m = .ok () { m with heap } := by simp [Run.update, hq]
      rw [leaves_ok hrun]
      exact hu hq
    | error e =>
      have hrun : (Run.update u) m = .error (.fault e) m := by simp [Run.update, hq]
      rw [leaves_error hrun]
      exact hR.refl m

instance (i : Nat) : Along R (slot i) := by
  unfold slot
  refine .get fun m => ?_
  split <;> infer_instance

instance (d : Nat) : Along R (below d) := by
  unfold below
  dsimp only
  infer_instance

instance (d : Nat) : Along R (peek d) := by
  unfold peek
  infer_instance

instance (kind : ObjectKind) (v : Value) : Along R (asKind kind v) := by
  unfold asKind
  infer_instance

instance (kind : ObjectKind) (v : Value) (e : RuntimeError) : Along R (requireKind kind v e) := by
  unfold requireKind
  refine .bind fun x => ?_
  split <;> infer_instance

instance : Along R frame := by
  unfold frame
  refine .get fun m => ?_
  split <;> infer_instance

instance (f : Frame) : Along R (runningChunk f) := by
  unfold runningChunk
  infer_instance

instance (i : UInt8) : Along R (frameUpvalue i) := by
  unfold frameUpvalue
  refine .bind fun f => .bind fun c => ?_
  split <;> infer_instance

instance (cls name : Handle) : Along R (findMethod cls name) := by
  unfold findMethod
  refine .bind fun c => .bind fun key => ?_
  split <;> infer_instance

instance (target name : Handle) : Along R (fieldOrClass target name) := by
  unfold fieldOrClass
  infer_instance

/-! ## Objects -/

omit hR in
theorem along_alloc {k : ObjectKind} [hmake : Makes R k] (o : Object) (h : o.kind = k)
    (hkind : o.kind ≠ .string) : Along R (alloc o) := .modifyGet fun m => hmake.make m o h hkind

instance [h : Interns R] (s : String) : Along R (intern s) := .modifyGet fun m => h.intern m s

instance [Makes R .bound] (b : Bound) : Along R (alloc (.bound b)) := along_alloc (k := .bound) _ rfl nofun

instance [Makes R .inst] (i : Instance) : Along R (alloc (.inst i)) := along_alloc (k := .inst) _ rfl nofun

instance [Makes R .cls] (c : Class) : Along R (alloc (.cls c)) := along_alloc (k := .cls) _ rfl nofun

instance [Makes R .closure] (c : Closure) : Along R (alloc (.closure c)) := along_alloc (k := .closure) _ rfl nofun

instance [Makes R .upvalue] (u : Upvalue) : Along R (alloc (.upvalue u)) := along_alloc (k := .upvalue) _ rfl nofun

instance [h : Alters R .inst] (x : Handle) (key : Key) (v : Value) :
    Along R (update (·.setField x key v)) := by
  refine .update fun {m heap} hset => ?_
  unfold Heap.setField at hset
  cases hi : m.heap.inst x with
  | error e => simp [hi, bind, Except.bind] at hset
  | ok i =>
    rw [hi] at hset
    cases hset
    obtain ⟨bytes, hc⟩ := Heap.inst_eq_ok_iff.1 hi
    exact h.change _ rfl hc rfl rfl

instance [h : Alters R .cls] (x : Handle) (key : Key) (v : Value) :
    Along R (update (·.setMethod x key v)) := by
  refine .update fun {m heap} hset => ?_
  unfold Heap.setMethod at hset
  cases hc : m.heap.cls x with
  | error e => simp [hc, bind, Except.bind] at hset
  | ok c =>
    rw [hc] at hset
    cases hset
    obtain ⟨bytes, hc⟩ := Heap.cls_eq_ok_iff.1 hc
    exact h.change _ rfl hc rfl rfl

instance [h : Alters R .cls] (super sub : Handle) : Along R (update (·.inheritMethods super sub)) := by
  refine .update fun {m heap} hset => ?_
  unfold Heap.inheritMethods at hset
  cases hs : m.heap.cls super with
  | error e => simp [hs, bind, Except.bind] at hset
  | ok s =>
    cases hc : m.heap.cls sub with
    | error e => simp [hs, hc, bind, Except.bind] at hset
    | ok c =>
      rw [hs, hc] at hset
      cases hset
      obtain ⟨bytes, hc⟩ := Heap.cls_eq_ok_iff.1 hc
      exact h.change _ rfl hc rfl rfl

instance [h : Alters R .upvalue] (x : Handle) (u : Upvalue) : Along R (update (·.setUpvalue x u)) := by
  refine .update fun {m heap} hset => ?_
  unfold Heap.setUpvalue at hset
  cases hw : m.heap.upvalue x with
  | error e => simp [hw, bind, Except.bind] at hset
  | ok w =>
    rw [hw] at hset
    cases hset
    obtain ⟨bytes, hc⟩ := Heap.upvalue_eq_ok_iff.1 hw
    exact h.change _ rfl hc rfl rfl

/-! ## Captured variables -/

omit hR in
theorem along_opened [h : Opens R] (f : List Handle → List Handle) :
    Along R (modify fun m => { m with openUpvalues := f m.openUpvalues } : Run Unit) :=
  .modifyGet fun m => h.opened m _

instance [Makes R .upvalue] [Opens R] (index : Nat) : Along R (captureUpvalue index) := by
  have := fun (before : Nat) (u : Handle) => along_opened (R := R) (·.insertIdx before u)
  unfold captureUpvalue
  refine .get fun m => .bind fun found => ?_
  split <;> infer_instance

instance [Alters R .upvalue] [Opens R] (last : Nat) (opened : List Handle) :
    Along R (closeFrom last opened) := by
  induction opened with
  | nil => exact inferInstanceAs (Along R (pure ()))
  | cons u rest ih =>
    have := along_opened (R := R) fun _ => rest
    unfold closeFrom
    refine .bind fun u => ?_
    split <;> infer_instance

instance [Alters R .upvalue] [Opens R] (last : Nat) : Along R (closeUpvalues last) := by
  unfold closeUpvalues
  infer_instance

/-! ## The stack -/

section Stacks

set_option synthInstance.maxSize 1024

variable [hS : Stacks R]

instance (v : Value) : Along R (push v) := by
  have := Along.modify (R := R) fun m => hS.stack m (m.stack.push v)
  unfold push
  infer_instance

instance : Along R pop := by
  have := Along.modify (R := R) fun m => hS.stack m m.stack.pop
  unfold pop
  refine .get fun m => ?_
  split <;> infer_instance

instance (i : Nat) (v : Value) : Along R (setSlot i v) := by
  have := Along.modify (R := R) fun m => hS.stack m (put m.stack i v)
  unfold setSlot
  infer_instance

instance (d : Nat) (v : Value) : Along R (poke d v) := by
  unfold poke
  infer_instance

instance (size : Nat) : Along R (truncate size) := .modify fun m => hS.stack m _

/-! ## Properties -/

instance [Makes R .bound] (cls name : Handle) : Along R (bindMethod cls name) := by
  unfold bindMethod
  infer_instance

instance : Along R popClass := by
  unfold popClass
  infer_instance

/-! ## Operators -/

instance : Along R equal := by
  unfold equal
  infer_instance

instance : Along R popNumbers := by
  unfold popNumbers
  refine .bind fun a => .bind fun b => ?_
  split <;> infer_instance

instance (lt : Number → Number → Bool) : Along R (compare lt) := by
  unfold compare
  infer_instance

instance (op : Number → Number → Number) : Along R (arithmetic op) := by
  unfold arithmetic
  infer_instance

instance [Interns R] (a b : Handle) : Along R (concatenate a b) := by
  unfold concatenate
  infer_instance

instance [Interns R] : Along R add := by
  unfold add
  refine .bind fun b => .bind fun a => ?_
  split
  · infer_instance
  · refine .bind fun s => .bind fun t => ?_
    split <;> infer_instance

instance : Along R not := by
  unfold not
  infer_instance

instance : Along R negate := by
  unfold negate
  refine .bind fun v => ?_
  split <;> infer_instance

instance [h : Prints R] : Along R print := by
  have := fun text : String => Along.modifyGet (R := R)
    (f := fun m : Machine => ((m.sink.write (text ++ "\n")).1, { m with sink := (m.sink.write (text ++ "\n")).2 }))
    fun m => h.sink m _
  unfold print
  exact .bind fun v => .bind fun text => .bind fun accepted => inferInstance

/-! ## Calls -/

instance [hE : Enters R] (closure : Handle) (count : Nat) : Along R (call closure count) := by
  have := fun (function : Handle) (base : Nat) =>
    Along.modify (R := R) fun m => hE.frames m ({ closure, function, base } :: m.frames)
  unfold call
  dsimp only
  infer_instance

instance [hC : Counts R] (h : Handle) (count : Nat) : Along R (callNative h count) := by
  have := Along.modify (R := R) fun m => hC.nativeCalls m (m.nativeCalls + 1)
  unfold callNative
  dsimp only
  infer_instance

instance [Enters R] [Makes R .inst] (cls : Handle) (count : Nat) : Along R (instantiate cls count) := by
  unfold instantiate
  refine .bind fun target => .bind fun _ => .bind fun c => .get fun m => .bind fun key => ?_
  dsimp only
  split
  · refine .bind fun init => ?_
    split <;> infer_instance
  · refine .bind fun init => ?_
    split <;> infer_instance

instance [Enters R] [Counts R] [Makes R .inst] (callee : Value) (count : Nat) : Along R (callValue callee count) := by
  unfold callValue
  split
  · refine .bind fun o => ?_
    split <;> infer_instance
  · infer_instance

instance [Enters R] (cls name : Handle) (count : Nat) : Along R (invokeFromClass cls name count) := by
  unfold invokeFromClass
  infer_instance

instance [Alters R .upvalue] [Opens R] : Along R closeTop := by
  unfold closeTop
  infer_instance

instance [hE : Enters R] [Alters R .upvalue] [Opens R] : Along R ret := by
  have := Along.modify (R := R) fun m => hE.frames m m.frames.tail
  have := Along.modify (R := R) fun m => hS.stack m #[]
  unfold ret
  infer_instance

/-! ## Classes -/

instance [Alters R .cls] : Along R inherit := by
  unfold inherit
  infer_instance

end Stacks

end Chains

/-! ## Instructions with operands -/

/-- The action reads operands by `r`, and what it does then leads to a related state. -/
class Begins {γ : Type} (r : Run γ) (R : Machine → Machine → Prop) (x : Run α) : Prop where
  rest : ∃ g : γ → Run α, x = r >>= g ∧ ∀ a, Along R (g a)

section Begins

set_option synthInstance.maxSize 1024

variable [hR : Chains R] [hS : Stacks R]

instance : Begins readByte R getLocal := ⟨_, rfl, fun _ => inferInstance⟩

instance : Begins readByte R setLocal := ⟨_, rfl, fun _ => inferInstance⟩

instance : Begins readByte R getUpvalue := by
  refine ⟨_, rfl, fun i => .bind fun h => .bind fun u => ?_⟩
  split <;> infer_instance

instance [Alters R .upvalue] : Begins readByte R setUpvalue := by
  refine ⟨_, rfl, fun i => .bind fun h => .bind fun v => .bind fun u => ?_⟩
  split <;> infer_instance

instance [Enters R] [Counts R] [Makes R .inst] : Begins readByte R callInstruction :=
  ⟨_, rfl, fun _ => inferInstance⟩

instance : Begins readName R getGlobal := by
  refine ⟨_, rfl, fun name => .bind fun key => .get fun m => ?_⟩
  split <;> infer_instance

instance [h : Defines R] : Begins readName R defineGlobal := by
  have := fun (key : Key) (v : Value) => Along.modify (R := R) fun m => h.globals m (m.globals.insert key v)
  exact ⟨_, rfl, fun name => inferInstance⟩

instance [h : Defines R] : Begins readName R setGlobal := by
  have := fun (key : Key) (v : Value) => Along.modifyGet (R := R)
    (f := fun m : Machine => ((m.globals.set key v).1, { m with globals := (m.globals.set key v).2 }))
    fun m => h.globals m _
  have := fun key : Key => Along.modify (R := R) fun m => h.globals m (m.globals.delete key).2
  exact ⟨_, rfl, fun name => .bind fun key => .bind fun v => .bind fun isNew => inferInstance⟩

instance [Makes R .bound] : Begins readName R getProperty := by
  refine ⟨_, rfl, fun name => .bind fun v => .bind fun target => .bind fun found => ?_⟩
  split <;> infer_instance

instance [Alters R .inst] : Begins readName R setProperty := ⟨_, rfl, fun _ => inferInstance⟩

instance [Makes R .bound] : Begins readName R getSuper := ⟨_, rfl, fun _ => inferInstance⟩

instance [Makes R .cls] : Begins readName R makeClass := ⟨_, rfl, fun _ => inferInstance⟩

instance [Alters R .cls] : Begins readName R method := ⟨_, rfl, fun _ => inferInstance⟩

end Begins

/-! ## Going on in the code -/

section Mild

variable [hR : Mild R]

instance (ip : Nat) : Along R (jumpTo ip) := .modify fun m => by
  split
  · exact hR.moves m ‹_› ip
  · exact hR.refl m

instance : Along R readByte := by
  unfold readByte
  refine .bind fun f => .bind fun c => ?_
  split <;> infer_instance

instance : Along R readDistance := by
  unfold readDistance
  refine .bind fun f => .bind fun c => ?_
  split <;> infer_instance

instance : Along R readOpcode := by
  unfold readOpcode
  refine .bind fun byte => ?_
  split <;> infer_instance

instance : Along R readConstant := by
  unfold readConstant
  refine .bind fun index => .bind fun f => .bind fun c => ?_
  split <;> infer_instance

instance (kind : ObjectKind) : Along R (readObject kind) := by
  unfold readObject
  refine .bind fun index => .bind fun f => .bind fun c => ?_
  split <;> infer_instance

instance : Along R readName := inferInstanceAs (Along R (readObject .string))

theorem Begins.along {γ : Type} {r : Run γ} [h : Begins r R x] [Along R r] : Along R x := by
  obtain ⟨g, rfl, hg⟩ := h.rest
  exact .bind hg

instance [Begins readByte R x] : Along R x := Begins.along (r := readByte)

instance [Begins readName R x] : Along R x := Begins.along (r := readName)

instance : Along R jump := by
  unfold jump
  infer_instance

instance : Along R jumpIfFalse := by
  unfold jumpIfFalse
  infer_instance

instance : Along R jumpBack := by
  unfold jumpBack
  infer_instance

instance [Makes R .upvalue] [Opens R] (base count : Nat) (upvalues : Array Handle) :
    Along R (captures base count upvalues) := by
  induction count generalizing upvalues with
  | zero => exact inferInstanceAs (Along R (pure _))
  | succ count ih =>
    unfold captures
    exact .bind fun origin => .bind fun index => inferInstance

end Mild

section Shifts

set_option synthInstance.maxSize 1024

variable [Shifts R]

instance [Makes R .inst] : Along R invoke := by
  unfold invoke
  refine .bind fun name => .bind fun count => .bind fun receiver => .bind fun target =>
    .bind fun found => ?_
  split <;> infer_instance

instance : Along R superInvoke := by
  unfold superInvoke
  infer_instance

instance [Makes R .upvalue] [Opens R] [Makes R .closure] : Along R makeClosure := by
  unfold makeClosure
  infer_instance

end Shifts

/-! ## Reports -/

/-- A report changes nothing but the journal. -/
instance [hR : Chains R] [h : Records R] : Along R report := by
  have := fun e e' : Event =>
    Along.modify (R := R) fun m => hR.trans (h.record m e) (h.record { m with heap := m.heap.record e } e')
  unfold report
  refine .bind fun f => .get fun m => .bind fun texts => .bind fun c => .bind fun text => ?_
  exact this (.operands texts) (.executes text.1)

end Run

end LoxMachine
