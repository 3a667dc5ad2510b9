import LoxMachine.Proofs.Machine.Assembly
import LoxMachine.Proofs.Machine.Positions

/-!
# Calling a property in one instruction

A call of a property is one instruction. It does the same as two, of which the first reads the
property and the second calls what was read, but it makes no bound method.

* `Run.invokeNamed`, `Run.propertyNamed`, … are what the instructions do once their operands are
  read.
* `Run.readThenCall` and `Run.readSuperThenCall` are the way round: the receiver is brought to the
  top of the stack, the property is read there, what was read is put back in its place and called.
* `Run.propertyThenCall` and `Run.superThenCall` are that way round with the instructions themselves. The
  code has a name and a number next, which is all that the one instruction reads, or the two.
* `Run.Concur` compares two outcomes up to objects that nothing refers to.
* `Run.Consults` are the actions that only look at the heap.
* `fused_calls`: both ways come to the same.
-/

namespace LoxMachine

namespace Run

/-! ## Instructions with their operands -/

def invokeNamed (name : Handle) (count : Nat) : Run Unit := do
  let target ← requireKind .inst (← peek count) .noMethods
  match ← fieldOrClass target name with
  | (some v, _) =>
    poke count v
    callValue v count
  | (none, cls) => invokeFromClass cls name count

theorem invoke_eq : invoke = (do
    let name ← readName
    let count := (← readByte).toNat
    invokeNamed name count) := rfl

def superInvokeNamed (name : Handle) (count : Nat) : Run Unit := do
  invokeFromClass (← popClass) name count

theorem superInvoke_eq : superInvoke = (do
    let name ← readName
    let count := (← readByte).toNat
    superInvokeNamed name count) := rfl

def propertyNamed (name : Handle) : Run Unit := do
  let target ← requireKind .inst (← peek 0) .noProperties
  match ← fieldOrClass target name with
  | (some v, _) =>
    let _ ← pop
    push v
  | (none, cls) => bindMethod cls name

theorem getProperty_eq : getProperty = (do propertyNamed (← readName)) := rfl

def superNamed (name : Handle) : Run Unit := do bindMethod (← popClass) name

theorem getSuper_eq : getSuper = (do superNamed (← readName)) := rfl

def callCounted (count : Nat) : Run Unit := do callValue (← peek count) count

theorem callInstruction_eq : callInstruction = (do callCounted (← readByte).toNat) := rfl

/-! ## The way round -/

/-- Move the value `distance` below the top to the top. -/
def raise (distance : Nat) : Run Unit := do
  let index ← below distance
  let v ← slot index
  modify fun m => { m with stack := (m.stack.toList.eraseIdx index ++ [v]).toArray }

/-- Move the value on top below `distance` others. -/
def bury (distance : Nat) : Run Unit := do
  let v ← pop
  modify fun m =>
    let low := m.stack.size - distance
    { m with stack := (m.stack.toList.take low ++ v :: m.stack.toList.drop low).toArray }

/-- Read the property of the receiver below the arguments, put it in its place, and call it. -/
def readThenCall (name : Handle) (count : Nat) : Run Unit := do
  raise count
  propertyNamed name
  bury count
  callCounted count

/-- Read the method of the superclass that is above the arguments, put it in the place of the
receiver, and call it. -/
def readSuperThenCall (name : Handle) (count : Nat) : Run Unit := do
  let superclass ← pop
  raise count
  push superclass
  superNamed name
  bury count
  callCounted count

/-- The operands of a call of a property. -/
def operands : Run (Handle × Nat) := do
  let name ← readName
  let count := (← readByte).toNat
  return (name, count)

/-- The instruction that reads a property, and the one that calls a value. -/
def propertyThenCall (count : Nat) : Run Unit := do
  raise count
  getProperty
  bury count
  callInstruction

/-- The instruction that reads a method of the superclass, and the one that calls a value. -/
def superThenCall (count : Nat) : Run Unit := do
  let superclass ← pop
  raise count
  push superclass
  getSuper
  bury count
  callInstruction

section Holding

variable {m : Machine} {low args : List Value} {v : Value}

theorem raise_of : raise args.length (m.holding (low ++ v :: args)) =
    .ok () (m.holding (low ++ args ++ [v])) := by
  have herase : (low ++ v :: args).eraseIdx low.length = low ++ args := by
    rw [List.eraseIdx_append_of_length_le le_rfl, Nat.sub_self, List.eraseIdx_cons_zero]
  unfold raise
  rw [bind_of_ok below_of, bind_of_ok slot_of]
  change EStateM.Result.ok () (m.holding ((low ++ v :: args).eraseIdx low.length ++ [v])) = _
  rw [herase]

theorem bury_of : bury args.length (m.holding (low ++ args ++ [v])) =
    .ok () (m.holding (low ++ v :: args)) := by
  have hlow : (low ++ args).toArray.size - args.length = low.length := by simp
  unfold bury
  rw [bind_of_ok pop_of]
  change EStateM.Result.ok () (m.holding
    ((low ++ args).take ((low ++ args).toArray.size - args.length) ++
      v :: (low ++ args).drop ((low ++ args).toArray.size - args.length))) = _
  rw [hlow, List.take_left, List.drop_left]

end Holding

/-! ## Actions that only look at the heap -/

/-- The action leaves the machine as it is, and its result depends on nothing but the heap. -/
class Consults {α : Type} (x : Run α) : Prop where
  answers : ∃ f : Heap → Except Failure α, ∀ m, x m =
    match f m.heap with
    | .ok a => .ok a m
    | .error e => .error e m

namespace Consults

variable {α β : Type} {x : Run α} {g : α → Run β} {m n : Machine}

/-- Two machines with the same heap get the same answer. -/
theorem same [hx : Consults x] (h : n.heap = m.heap) :
    (∃ a, x m = .ok a m ∧ x n = .ok a n) ∨ ∃ e, x m = .error e m ∧ x n = .error e n := by
  obtain ⟨f, hf⟩ := hx.answers
  rw [hf m, hf n, h]
  cases f m.heap with
  | ok a => exact .inl ⟨a, rfl, rfl⟩
  | error e => exact .inr ⟨e, rfl, rfl⟩

instance (a : α) : Consults (pure a : Run α) := ⟨fun _ => .ok a, fun _ => rfl⟩

instance (e : RuntimeError) : Consults (fail e : Run α) :=
  ⟨fun _ => .error (.error e), fun _ => rfl⟩

instance (q : Heap → Except Fault α) : Consults (look q) where
  answers := by
    refine ⟨fun heap => (q heap).mapError .fault, fun m => ?_⟩
    cases hq : q m.heap with
    | ok a =>
      dsimp only
      rw [hq]
      exact look_ok hq
    | error e =>
      dsimp only
      rw [hq]
      exact look_error hq

theorem bind [hx : Consults x] (hg : ∀ a, Consults (g a)) : Consults (x >>= g) where
  answers := by
    obtain ⟨f, hf⟩ := hx.answers
    choose k hk using fun a => (hg a).answers
    refine ⟨fun heap => f heap >>= fun a => k a heap, fun m => ?_⟩
    have hm := hf m
    dsimp only
    cases hfm : f m.heap with
    | ok a =>
      rw [hfm] at hm
      rw [bind_of_ok hm]
      exact hk a m
    | error e =>
      rw [hfm] at hm
      exact bind_of_error hm

instance [Consults x] [hg : ∀ a, Consults (g a)] : Consults (x >>= g) := bind hg

instance (kind : ObjectKind) (v : Value) : Consults (asKind kind v) :=
  inferInstanceAs (Consults (look _))

instance (kind : ObjectKind) (v : Value) (e : RuntimeError) : Consults (requireKind kind v e) := by
  unfold requireKind
  refine bind fun found => ?_
  cases found <;> infer_instance

instance (target name : Handle) : Consults (fieldOrClass target name) := by
  unfold fieldOrClass
  infer_instance

instance (cls name : Handle) : Consults (findMethod cls name) := by
  unfold findMethod
  refine bind fun c => bind fun key => ?_
  cases c.methods.get? key <;> infer_instance

end Consults

/-! ## Outcomes that agree -/

/-- Both actions end, and the machines differ in nothing but objects that cannot be reached; or both
fail, with the same error. -/
def Concur : EStateM.Result Failure Machine Unit → EStateM.Result Failure Machine Unit → Prop
  | .ok _ m, .ok _ m' => m' = { m with heap := m'.heap } ∧ m.heap.Keeps m.roots m'.heap
  | .error e _, .error e' _ => e = e'
  | _, _ => False

theorem Concur.refl (r : EStateM.Result Failure Machine Unit) : Concur r r := by
  cases r with
  | ok a m => exact ⟨rfl, .refl _ _⟩
  | error e m => rfl

/-! ## Calls -/

section Calls

variable {m : Machine} {x cls name : Handle} {heap : Heap} {low args : List Value}
  {receiver : Value}

/-- A closure is called alike in a heap that keeps it. -/
theorem call_concur (hs : m.Sane) (hx : m.heap.kind? x = some .closure)
    (hkeep : m.heap.Keeps (x :: m.roots) heap) (count : Nat) :
    Concur (call x count m) (call x count { m with heap }) := by
  obtain ⟨c, bytes, hc⟩ := Heap.closure_of_kind? hx
  obtain ⟨f, bytes', hf⟩ := Heap.function_of_kind? (hs.heap.fit hc).1
  have hreach : m.heap.Reachable (x :: m.roots) x :=
    .root List.mem_cons_self (Heap.contains_of_cell? hc)
  have hreach' : m.heap.Reachable (x :: m.roots) c.function :=
    .reference hreach hc List.mem_cons_self (Heap.contains_of_cell? hf)
  rw [call_eq hc hf, call_eq (m := { m with heap }) ((hkeep x hreach).trans hc)
    ((hkeep _ hreach').trans hf)]
  split_ifs
  · rfl
  · rfl
  · rfl
  · refine ⟨rfl, hkeep.mono fun r hr => ?_⟩
    rcases Machine.mem_roots.1 hr with hv | ⟨k, hk, rfl⟩ | hrest
    · exact List.mem_cons_of_mem _ (Machine.mem_roots.2 (.inl hv))
    · rcases List.mem_cons.1 hk with rfl | hk
      · exact List.mem_cons_self
      · exact List.mem_cons_of_mem _ (Machine.mem_roots.2 (.inr (.inl ⟨k, hk, rfl⟩)))
    · exact List.mem_cons_of_mem _ (Machine.mem_roots.2 (.inr (.inr hrest)))

theorem callValue_bound {b : Bound} {bytes : Nat} (hc : m.heap.cell? x = some ⟨.bound b, bytes⟩)
    (count : Nat) :
    callValue (.obj x) count m = (do poke count b.receiver; call b.method count) m := by
  change (look (·.object x) >>= _) m = _
  rw [look_bind_ok (Heap.object_of_cell? hc)]

/-- A value is called that has been put below its arguments. -/
theorem bury_call :
    (do bury args.length; callCounted args.length) (m.holding (low ++ args ++ [receiver])) =
      callValue receiver args.length (m.holding (low ++ receiver :: args)) := by
  rw [bind_of_ok bury_of]
  unfold callCounted
  rw [bind_of_ok peek_of]

/-- There is room for one more value than the others on the stack. -/
theorem length_lt (hs : (m.holding (low ++ receiver :: args)).Sane) :
    (low ++ args).length < maxStack := by
  have hle := hs.size_le
  simp only [Machine.holding_stack, List.size_toArray, List.length_append,
    List.length_cons] at hle ⊢
  omega

/-- A method is bound to the receiver on top of the stack. -/
theorem bindMethod_of {method : Handle} (ht : m.heap.Tidy) (hlt : low.length < maxStack)
    (hfind : findMethod cls name (m.holding (low ++ [receiver])) =
      .ok method (m.holding (low ++ [receiver]))) :
    ∃ bound heap, m.heap.Allocates (m.holding (low ++ [receiver])).roots
        (.bound { receiver, method }) bound heap ∧
      bindMethod cls name (m.holding (low ++ [receiver])) =
        .ok () ({ m with heap }.holding (low ++ [Value.obj bound])) := by
  let roots : Thunk (List Handle) := .mk fun _ =>
    Machine.handles (low ++ [receiver]).toArray m.frames m.openUpvalues m.globals m.initName
  refine ⟨(m.heap.alloc roots (.bound { receiver, method })).1,
    (m.heap.alloc roots (.bound { receiver, method })).2, Heap.alloc_allocates ht roots _, ?_⟩
  have halloc : alloc (.bound { receiver, method }) (m.holding (low ++ [receiver])) =
      .ok (m.heap.alloc roots (.bound { receiver, method })).1
        ({ m with heap := (m.heap.alloc roots (.bound { receiver, method })).2 }.holding
          (low ++ [receiver])) := rfl
  unfold bindMethod
  rw [bind_of_ok hfind, bind_of_ok peek_top, bind_of_ok halloc, bind_of_ok pop_of, push_of hlt]

/-- **A method.** Calling the bound method is calling the method. -/
theorem method_concur (hs : (m.holding (low ++ receiver :: args)).Sane)
    (hcls : m.heap.kind? cls = some .cls) (hname : m.heap.IsString name) :
    Concur (invokeFromClass cls name args.length (m.holding (low ++ receiver :: args)))
      ((do bindMethod cls name; bury args.length; callCounted args.length)
        (m.holding (low ++ args ++ [receiver]))) := by
  have hsize := length_lt hs
  unfold invokeFromClass
  rcases Consults.same (x := findMethod cls name) (m := m.holding (low ++ receiver :: args))
    (n := m.holding (low ++ args ++ [receiver])) rfl with
    ⟨method, hfast, hslow⟩ | ⟨e, hfast, hslow⟩
  · obtain ⟨-, hmethod⟩ := (findMethod_tame hs hcls hname).of_ok hfast
    obtain ⟨bound, heap, ha, hbind⟩ := bindMethod_of (m := m) hs.heap.tidy hsize hslow
    have hkeep : m.heap.Keeps (method :: (m.holding (low ++ receiver :: args)).roots) heap := by
      refine ha.keeps.mono fun r hr => ?_
      rcases List.mem_cons.1 hr with rfl | hr
      · exact List.mem_append_left _ (List.mem_append_right _ (List.mem_singleton_self _))
      · refine List.mem_append_right _ (Machine.mem_roots.2 ?_)
        refine (Machine.mem_roots.1 hr).imp_left fun h => ?_
        simp only [Machine.holding_stack, List.mem_toArray, List.mem_append, List.mem_cons] at h ⊢
        tauto
    rw [bind_of_ok hfast, bind_of_ok hbind, bury_call, callValue_bound ha.new,
      bind_of_ok (poke_of receiver)]
    exact call_concur hs hmethod hkeep _
  · have hbind : bindMethod cls name (m.holding (low ++ args ++ [receiver])) =
        .error e (m.holding (low ++ args ++ [receiver])) := bind_of_error hslow
    rw [bind_of_error hfast, bind_of_error hbind]
    rfl

theorem requireKind_of {cell : Cell} (kind : ObjectKind) (hc : m.heap.cell? x = some cell)
    (hkind : cell.object.kind = kind) (e : RuntimeError) :
    requireKind kind (.obj x) e m = .ok x m := by
  unfold requireKind asKind
  rw [look_bind_ok (asKind_of_cell? hc kind), if_pos hkind]
  rfl

theorem fieldOrClass_of {i : Instance} {bytes : Nat} (hc : m.heap.cell? x = some ⟨.inst i, bytes⟩)
    (hname : m.heap.IsString name) :
    fieldOrClass x name m = .ok (i.fields.get? ⟨name, m.heap.hashOf name⟩, i.cls) m := by
  unfold fieldOrClass
  rw [look_bind_ok (Heap.inst_of_cell? hc), look_bind_ok (Heap.key_eq hname)]
  rfl

/-- **A property.** Calling the field or the bound method is what `invoke` does. -/
theorem property_concur (hs : (m.holding (low ++ .obj x :: args)).Sane)
    (hx : m.heap.kind? x = some .inst) (hname : m.heap.IsString name) :
    Concur (invokeNamed name args.length (m.holding (low ++ .obj x :: args)))
      (readThenCall name args.length (m.holding (low ++ .obj x :: args))) := by
  obtain ⟨i, bytes, hc⟩ := Heap.inst_of_kind? hx
  have hsize := length_lt hs
  have hinst : ∀ (values : List Value) (e : RuntimeError),
      requireKind .inst (.obj x) e (m.holding values) = .ok x (m.holding values) := fun values e =>
    requireKind_of (m := m.holding values) .inst hc rfl e
  have hfield : ∀ values : List Value, fieldOrClass x name (m.holding values) =
      .ok (i.fields.get? ⟨name, m.heap.hashOf name⟩, i.cls) (m.holding values) := fun values =>
    fieldOrClass_of (m := m.holding values) hc hname
  unfold invokeNamed readThenCall
  rw [bind_of_ok peek_of, bind_of_ok (hinst _ _), bind_of_ok (hfield _), bind_of_ok raise_of]
  cases hget : i.fields.get? ⟨name, m.heap.hashOf name⟩ with
  | some v =>
    -- the field is in the place of the receiver either way
    have hslow : propertyNamed name (m.holding (low ++ args ++ [.obj x])) =
        .ok () (m.holding (low ++ args ++ [v])) := by
      unfold propertyNamed
      rw [bind_of_ok peek_top, bind_of_ok (hinst _ _), bind_of_ok (hfield _), hget]
      exact (bind_of_ok pop_of).trans (push_of hsize)
    rw [bind_of_ok hslow, bury_call]
    change Concur ((do poke args.length v; callValue v args.length) _) _
    rw [bind_of_ok (poke_of v)]
    exact .refl _
  | none =>
    have hslow : propertyNamed name (m.holding (low ++ args ++ [.obj x])) =
        bindMethod i.cls name (m.holding (low ++ args ++ [.obj x])) := by
      unfold propertyNamed
      rw [bind_of_ok peek_top, bind_of_ok (hinst _ _), bind_of_ok (hfield _), hget]
    rw [bind_congr_at hslow]
    exact method_concur hs (hs.heap.fit hc).1 hname

/-- A receiver that is no instance is rejected. -/
theorem requireKind_other {v : Value} (hs : v.In m.heap.Live) (kind : ObjectKind)
    (hkind : m.heap.kindOf v ≠ .ok (some kind)) (e : RuntimeError) :
    requireKind kind v e m = .error (.error e) m := by
  have hask : m.heap.asKind kind v = .ok none := by
    cases v with
    | obj x =>
      obtain ⟨cell, hc⟩ := Heap.contains_iff.1 (hs x rfl)
      rw [asKind_of_cell? hc, if_neg fun hk => hkind ?_]
      rw [Heap.kindOf, Heap.object_of_cell? hc, ← hk]
      rfl
    | _ => rfl
  unfold requireKind asKind
  rw [look_bind_ok hask]
  rfl

/-- **A method of the superclass.** -/
theorem super_concur {superclass : Value}
    (hs : (m.holding (low ++ receiver :: args ++ [superclass])).Sane)
    (hname : m.heap.IsString name) :
    Concur
      (superInvokeNamed name args.length (m.holding (low ++ receiver :: args ++ [superclass])))
      (readSuperThenCall name args.length
        (m.holding (low ++ receiver :: args ++ [superclass]))) := by
  have hsize : (low ++ args ++ [receiver]).length < maxStack := by
    have hlt := @length_lt m (low ++ receiver :: args) [] superclass hs
    simp only [List.length_append, List.length_cons, List.length_nil] at hlt ⊢
    omega
  have hs' : (m.holding (low ++ receiver :: args)).Sane := (pop_tame hs).of_ok pop_of |>.2.1
  have hpop : ∀ values, popClass (m.holding (values ++ [superclass])) =
      requireKind .cls superclass .superclassNotClass (m.holding values) :=
    fun _ => bind_of_ok pop_of
  unfold superInvokeNamed readSuperThenCall
  rw [bind_of_ok (g := fun superclass => do
      raise args.length; push superclass; superNamed name; bury args.length
      callCounted args.length) pop_of, bind_of_ok raise_of, bind_of_ok (push_of hsize)]
  rcases Consults.same (x := requireKind .cls superclass .superclassNotClass)
    (m := m.holding (low ++ receiver :: args))
    (n := m.holding (low ++ args ++ [receiver])) rfl with
    ⟨cls, hfast, hslow⟩ | ⟨e, hfast, hslow⟩
  · have hcls : m.heap.kind? cls = some .cls :=
      ((requireKind_tame hs' (pop_tame hs |>.of_ok pop_of).1 .cls _).of_ok hfast).2.2
    have hsuper : superNamed name (m.holding (low ++ args ++ [receiver] ++ [superclass])) =
        bindMethod cls name (m.holding (low ++ args ++ [receiver])) :=
      bind_of_ok ((hpop _).trans hslow)
    rw [bind_of_ok ((hpop _).trans hfast), bind_congr_at hsuper]
    exact method_concur hs' hcls hname
  · have hsuper : superNamed name (m.holding (low ++ args ++ [receiver] ++ [superclass])) =
        .error e (m.holding (low ++ args ++ [receiver])) := bind_of_error ((hpop _).trans hslow)
    rw [bind_of_error ((hpop _).trans hfast), bind_of_error hsuper]
    rfl

end Calls

end Run

/-! ## Reading the operands -/

namespace Run

/-- The outcomes are the same, except for what a failing action leaves. -/
def SameOutcome (r r' : EStateM.Result Failure Machine Unit) : Prop :=
  r = r' ∨ ∃ e m m', r = .error e m ∧ r' = .error e m'

theorem Concur.of_same {r s t : EStateM.Result Failure Machine Unit} (h : Concur r s) (hst : SameOutcome t s) :
    Concur r t := by
  rcases hst with rfl | ⟨e, m, m', rfl, rfl⟩
  · exact h
  · cases r with
    | ok a n => exact h.elim
    | error e' n => exact h

section Operands

variable {m₀ m : Machine} {name : Handle} {count : Nat} {low args : List Value} {receiver : Value}

theorem operands_inv (h : operands m₀ = .ok (name, count) m) :
    ∃ b : UInt8, b.toNat = count ∧ readName m₀ = .ok name m₀.advanced ∧
      readByte m₀.advanced = .ok b m₀.advanced.advanced ∧ m = m₀.advanced.advanced := by
  unfold operands at h
  obtain ⟨x, m₁, hname, h₁⟩ := bind_ok h
  obtain ⟨b, m₂, hbyte, h₂⟩ := bind_ok h₁
  obtain rfl := readName_ok hname
  obtain rfl := readByte_ok hbyte
  cases h₂
  exact ⟨b, rfl, hname, hbyte, rfl⟩

theorem operands_tame (hs : m.Sane) : Tame operands m fun _ m' => m'.Sane :=
  (readName_tame hs).bind fun _ _ hname => (readByte_tame hname.1.sane).bind fun _ _ hbyte => .pure hbyte.sane

/-- The instructions are what they do once their operands are read. -/
theorem invoke_of_operands (h : operands m₀ = .ok (name, count) m) :
    invoke m₀ = invokeNamed name count m ∧ superInvoke m₀ = superInvokeNamed name count m := by
  obtain ⟨b, rfl, hname, hbyte, rfl⟩ := operands_inv h
  rw [invoke_eq, superInvoke_eq, bind_of_ok hname, bind_of_ok hbyte, bind_of_ok hname, bind_of_ok hbyte]
  exact ⟨rfl, rfl⟩

instance : Ignores Machine.advanced (propertyNamed name) := by
  unfold propertyNamed
  refine Ignores.bind fun v => Ignores.bind fun target => Ignores.bind fun found => ?_
  obtain ⟨_ | v, cls⟩ := found <;> infer_instance

instance : Ignores Machine.advanced (superNamed name) := by
  unfold superNamed
  infer_instance

/-- The action ends with one more value on the stack and with a heap in which the calls and what they refer to
are kept, or it fails. -/
def Yields (x : Run Unit) (m : Machine) (low : List Value) : Prop :=
  (∃ e m', x m = .error e m') ∨
    ∃ v heap, x m = .ok () ({ m with heap }.holding (low ++ [v])) ∧ m.heap.Keeps (m.holding []).roots heap

theorem bindMethod_yields (cls : Handle) (ht : m.heap.Tidy) (hlt : low.length < maxStack) :
    Yields (bindMethod cls name) (m.holding (low ++ [receiver])) low := by
  rcases Consults.same (x := findMethod cls name) (m := m.holding (low ++ [receiver])) rfl with
    ⟨method, hfind, -⟩ | ⟨e, hfind, -⟩
  · obtain ⟨bound, heap, ha, hbind⟩ := bindMethod_of ht hlt hfind
    refine .inr ⟨_, heap, hbind, ha.keeps.mono fun r hr => List.mem_append_right _ (Machine.mem_roots.2 ?_)⟩
    exact (Machine.mem_roots.1 hr).imp_left fun h => absurd h (Array.not_mem_empty _)
  · exact .inl ⟨e, _, bind_of_error hfind⟩

theorem propertyNamed_yields (ht : m.heap.Tidy) (hlt : low.length < maxStack) :
    Yields (propertyNamed name) (m.holding (low ++ [receiver])) low := by
  unfold propertyNamed Yields
  rw [bind_of_ok peek_top]
  rcases Consults.same (x := requireKind .inst receiver .noProperties) (m := m.holding (low ++ [receiver])) rfl
    with ⟨x, hx, -⟩ | ⟨e, hx, -⟩
  · rw [bind_of_ok hx]
    rcases Consults.same (x := fieldOrClass x name) (m := m.holding (low ++ [receiver])) rfl with
      ⟨⟨v, cls⟩, hfound, -⟩ | ⟨e, hfound, -⟩
    · rw [bind_of_ok hfound]
      cases v with
      | some v => exact .inr ⟨v, m.heap, (bind_of_ok pop_of).trans (push_of hlt), .refl _ _⟩
      | none => exact bindMethod_yields cls ht hlt
    · exact .inl ⟨e, _, bind_of_error hfound⟩
  · exact .inl ⟨e, _, bind_of_error hx⟩

theorem superNamed_yields {superclass : Value} (ht : m.heap.Tidy) (hlt : low.length < maxStack) :
    Yields (superNamed name) (m.holding (low ++ [receiver] ++ [superclass])) low := by
  have hpop : popClass (m.holding (low ++ [receiver] ++ [superclass])) =
      requireKind .cls superclass .superclassNotClass (m.holding (low ++ [receiver])) := bind_of_ok pop_of
  rcases Consults.same (x := requireKind .cls superclass .superclassNotClass)
    (m := m.holding (low ++ [receiver])) rfl with ⟨cls, hcls, -⟩ | ⟨e, hcls, -⟩
  · have hyields : Yields (bindMethod cls name) (m.holding (low ++ [receiver])) low := bindMethod_yields cls ht hlt
    rcases hyields with ⟨e, n, hbind⟩ | ⟨v, heap, hbind, hk⟩
    · exact .inl ⟨e, n, (bind_of_ok (hpop.trans hcls)).trans hbind⟩
    · exact .inr ⟨v, heap, (bind_of_ok (hpop.trans hcls)).trans hbind, hk⟩
  · exact .inl ⟨e, _, bind_of_error (hpop.trans hcls)⟩

/-- **The number may be read before the property is.** -/
theorem read_between {x : Run Unit} [hx : Ignores Machine.advanced x] {start : List Value} {b : UInt8}
    (hs : m.Sane) (hyields : Yields x (m.holding start) (low ++ args)) (hb : b.toNat = args.length)
    (hbyte : readByte m = .ok b m.advanced) :
    SameOutcome ((do x; bury args.length; callInstruction) (m.holding start))
      ((do x; bury args.length; callCounted args.length) (m.advanced.holding start)) := by
  have hlater : x (m.advanced.holding start) = onMachine Machine.advanced (x (m.holding start)) :=
    hx.commutes (m.holding start)
  rcases hyields with ⟨e, n, hfails⟩ | ⟨v, heap, hends, hk⟩
  · rw [hfails] at hlater
    exact .inr ⟨e, n, n.advanced, bind_of_error hfails, bind_of_error hlater⟩
  · rw [hends] at hlater
    have hempty : (m.holding []).Sane := hs.stack_to (fun _ hx => absurd hx (Array.not_mem_empty _)) (Nat.zero_le _)
    have hheld : readByte (m.holding []) = .ok b (m.holding []).advanced := by
      rw [readByte_holding, hbyte]
      rfl
    have hread : readByte ({ m.holding start with heap }.holding (low ++ v :: args)) =
        .ok b ({ m.holding start with heap }.holding (low ++ v :: args)).advanced := by
      change readByte ({ m.holding [] with heap }.holding (low ++ v :: args)) = _
      rw [readByte_holding, readByte_kept hempty hheld hk]
      rfl
    left
    rw [bind_of_ok hends, bind_of_ok hlater, bind_of_ok bury_of, callInstruction_eq, bind_of_ok hread, hb]
    have hbury := @bury_of { m.holding start with heap }.advanced low args v
    exact (bind_of_ok (g := fun _ => callCounted args.length) hbury).symm

/-- **Reading a property and calling it**, with the operands read first or as they are needed. -/
theorem propertyThenCall_same (hs : m.Sane) (hstack : m.stack = (low ++ receiver :: args).toArray)
    (h : operands m₀ = .ok (name, args.length) m) :
    SameOutcome (propertyThenCall args.length m₀) (readThenCall name args.length m) := by
  obtain ⟨b, hb, hname, hbyte, rfl⟩ := operands_inv h
  have hsize : (low ++ args).length < maxStack := length_lt (Machine.holding_self hstack ▸ hs)
  have hraise : ∀ n : Machine, n.stack = (low ++ receiver :: args).toArray →
      raise args.length n = .ok () (n.holding (low ++ args ++ [receiver])) := fun n hn => by
    have hn' := @raise_of n low args receiver
    rwa [Machine.holding_self hn] at hn'
  have hget : getProperty (m₀.holding (low ++ args ++ [receiver])) =
      propertyNamed name (m₀.advanced.holding (low ++ args ++ [receiver])) := by
    rw [getProperty_eq]
    refine bind_of_ok ?_
    rw [readName_holding, hname]
    rfl
  unfold propertyThenCall readThenCall
  rw [bind_of_ok (hraise m₀ hstack), bind_congr_at hget, bind_of_ok (hraise _ hstack)]
  exact read_between hs.of_advanced (propertyNamed_yields hs.heap.tidy hsize) hb hbyte

/-- **Reading a method of the superclass and calling it**, with the operands read first or as they are
needed. -/
theorem superThenCall_same {superclass : Value} (hs : m.Sane)
    (hstack : m.stack = (low ++ receiver :: args ++ [superclass]).toArray)
    (h : operands m₀ = .ok (name, args.length) m) :
    SameOutcome (superThenCall args.length m₀) (readSuperThenCall name args.length m) := by
  obtain ⟨b, hb, hname, hbyte, rfl⟩ := operands_inv h
  have hsize : (low ++ args ++ [receiver]).length < maxStack := by
    have hle := hs.size_le
    rw [hstack] at hle
    simp only [List.size_toArray, List.length_append, List.length_cons, List.length_nil] at hle ⊢
    omega
  have hpop : ∀ n : Machine, n.stack = (low ++ receiver :: args ++ [superclass]).toArray →
      pop n = .ok superclass (n.holding (low ++ receiver :: args)) := fun n hn => by
    have hn' := @pop_of n (low ++ receiver :: args) superclass
    rwa [Machine.holding_self hn] at hn'
  have hget : getSuper (m₀.holding (low ++ args ++ [receiver] ++ [superclass])) =
      superNamed name (m₀.advanced.holding (low ++ args ++ [receiver] ++ [superclass])) := by
    rw [getSuper_eq]
    refine bind_of_ok ?_
    rw [readName_holding, hname]
    rfl
  unfold superThenCall readSuperThenCall
  rw [bind_of_ok (hpop m₀ hstack), bind_of_ok raise_of, bind_of_ok (push_of hsize), bind_congr_at hget,
    bind_of_ok (hpop _ hstack), bind_of_ok raise_of, bind_of_ok (push_of hsize)]
  refine read_between hs.of_advanced (superNamed_yields hs.heap.tidy ?_) hb hbyte
  rw [List.length_append] at hsize
  omega

end Operands

end Run

/-! ## Other instances -/

namespace Heap

/-- Nothing but the fields and the classes of instances differs. -/
def SameButInstances (heap heap' : Heap) : Prop :=
  ∀ x, heap'.kind? x = heap.kind? x ∧ (heap.kind? x ≠ some .inst → heap'.cell? x = heap.cell? x)

variable {heap heap' : Heap} {x : Handle}

theorem SameButInstances.cell? (h : heap.SameButInstances heap') {k : ObjectKind}
    (hk : heap.kind? x = some k) (hne : k ≠ .inst) : heap'.cell? x = heap.cell? x :=
  (h x).2 (by rw [hk]; simpa using hne)

theorem asKind_obj (heap : Heap) (kind : ObjectKind) (x : Handle) : heap.asKind kind (.obj x) =
    match heap.kind? x with
    | some k => .ok (if k = kind then some x else none)
    | none => .error (.freed x) := by
  cases hc : heap.cell? x with
  | none => simp [Heap.asKind, Heap.object, Heap.kind?, hc, bind, Except.bind]
  | some cell => rw [Heap.kind?_of_cell? hc, Run.asKind_of_cell? hc]

theorem kindOf_eq_some {v : Value} {k : ObjectKind} (h : heap.kindOf v = .ok (some k)) :
    ∃ x, v = .obj x ∧ heap.kind? x = some k := by
  cases v with
  | obj x =>
    refine ⟨x, rfl, ?_⟩
    cases hc : heap.cell? x with
    | none => simp [Heap.kindOf, Heap.object, hc, bind, Except.bind] at h
    | some cell =>
      rw [Heap.kindOf, Heap.object_of_cell? hc] at h
      cases h
      exact Heap.kind?_of_cell? hc
  | _ => cases h

theorem SameButInstances.asKind (h : heap.SameButInstances heap') (kind : ObjectKind) (v : Value) :
    heap'.asKind kind v = heap.asKind kind v := by
  cases v with
  | obj x => rw [asKind_obj, asKind_obj, (h x).1]
  | _ => rfl

end Heap

namespace Machine

/-- The machine with another value at an index of the stack, and with another heap. -/
def disguise (m : Machine) (heap : Heap) (index : Nat) (v : Value) : Machine :=
  { m with heap, stack := put m.stack index v }

end Machine

namespace Run

section Disguise

variable {m : Machine} {x cls name : Handle} {heap : Heap} {low args : List Value}
  {receiver : Value}

/-- A value that must be an object of a kind is checked alike. -/
theorem requireKind_disguise (h : m.heap.SameButInstances heap) (kind : ObjectKind) (v : Value)
    (e : RuntimeError) (index : Nat) (w : Value) :
    requireKind kind v e (m.disguise heap index w) =
      onMachine (·.disguise heap index w) (requireKind kind v e m) := by
  have hask : (m.disguise heap index w).heap.asKind kind v = m.heap.asKind kind v := h.asKind kind v
  unfold requireKind asKind
  cases hfound : m.heap.asKind kind v with
  | error f =>
    rw [bind_of_error (look_error (hask.trans hfound)), bind_of_error (look_error hfound)]
    rfl
  | ok found =>
    rw [look_bind_ok (hask.trans hfound), look_bind_ok hfound]
    cases found <;> rfl

theorem findMethod_of {c : Class} {bytes : Nat} {text : Text} {bytes' : Nat}
    (hc : m.heap.cell? cls = some ⟨.cls c, bytes⟩)
    (hname : m.heap.cell? name = some ⟨.string text, bytes'⟩) :
    findMethod cls name m =
      match c.methods.get? ⟨name, text.hash⟩ with
      | some v => requireKind .closure v (.undefinedProperty text.contents) m
      | none => .error (.error (.undefinedProperty text.contents)) m := by
  have hcontents : m.heap.contents name = .ok text.contents := by
    rw [Heap.contents, Heap.string_of_cell? hname]
    rfl
  have hkey : m.heap.key name = .ok ⟨name, text.hash⟩ := by
    rw [Heap.key, Heap.string_of_cell? hname]
    rfl
  unfold findMethod
  rw [look_bind_ok (Heap.cls_of_cell? hc), look_bind_ok hkey]
  cases c.methods.get? ⟨name, text.hash⟩ with
  | some v => exact look_bind_ok hcontents
  | none => exact look_bind_ok hcontents

theorem findMethod_disguise (h : m.heap.SameButInstances heap) (hcls : m.heap.kind? cls = some .cls)
    (hname : m.heap.IsString name) (index : Nat) (w : Value) :
    findMethod cls name (m.disguise heap index w) =
      onMachine (·.disguise heap index w) (findMethod cls name m) := by
  obtain ⟨c, bytes, hc⟩ := Heap.cls_of_kind? hcls
  obtain ⟨text, bytes', ht⟩ := hname
  have hc' := (h.cell? hcls (by decide)).trans hc
  have ht' := (h.cell? (Heap.kind?_of_cell? ht) (by simp [Object.kind])).trans ht
  rw [findMethod_of hc ht, findMethod_of (m := m.disguise heap index w) hc' ht']
  cases c.methods.get? ⟨name, text.hash⟩ with
  | some v => exact requireKind_disguise h .closure v _ index w
  | none => rfl

theorem call_disguise (hs : m.heap.Healthy) (h : m.heap.SameButInstances heap)
    (hx : m.heap.kind? x = some .closure) (count index : Nat) (w : Value) :
    call x count (m.disguise heap index w) =
      onMachine (·.disguise heap index w) (call x count m) := by
  obtain ⟨c, bytes, hc⟩ := Heap.closure_of_kind? hx
  have hfunction := (hs.fit hc).1
  obtain ⟨f, bytes', hf⟩ := Heap.function_of_kind? hfunction
  rw [call_eq hc hf, call_eq (m := m.disguise heap index w) ((h.cell? hx (by decide)).trans hc)
    ((h.cell? hfunction (by decide)).trans hf)]
  have hsize : (m.disguise heap index w).stack.size = m.stack.size := size_put ..
  have hframes : (m.disguise heap index w).frames = m.frames := rfl
  rw [hsize, hframes]
  split_ifs <;> rfl

/-- **The receiver of `super` is not looked at.** -/
theorem superInvokeNamed_disguise {superclass : Value} (hs : m.Sane)
    (hstack : m.stack = (low ++ receiver :: args ++ [superclass]).toArray)
    (h : m.heap.SameButInstances heap) (hname : m.heap.IsString name) (w : Value) :
    superInvokeNamed name args.length (m.disguise heap low.length w) =
      onMachine (·.disguise heap low.length w) (superInvokeNamed name args.length m) := by
  rw [← Machine.holding_self hstack] at hs ⊢
  have hdisguise : ∀ above,
      (m.holding (low ++ receiver :: args ++ above)).disguise heap low.length w =
        { m with heap }.holding (low ++ w :: args ++ above) := fun above => by
    simp [Machine.disguise, Machine.holding, put]
  have hpop : popClass (m.holding (low ++ receiver :: args ++ [superclass])) =
      requireKind .cls superclass .superclassNotClass (m.holding (low ++ receiver :: args)) :=
    bind_of_ok pop_of
  have hpop' :
      popClass ((m.holding (low ++ receiver :: args ++ [superclass])).disguise heap low.length w) =
        onMachine (·.disguise heap low.length w)
          (requireKind .cls superclass .superclassNotClass
            (m.holding (low ++ receiver :: args))) := by
    rw [← requireKind_disguise (m := m.holding (low ++ receiver :: args)) h, hdisguise]
    have hself := hdisguise []
    simp only [List.append_nil] at hself
    rw [hself]
    exact bind_of_ok pop_of
  obtain ⟨hsuper, hs', -⟩ := (pop_tame hs).of_ok pop_of
  unfold superInvokeNamed
  cases hcheck : requireKind .cls superclass .superclassNotClass
      (m.holding (low ++ receiver :: args)) with
  | error e m' =>
    rw [hcheck] at hpop hpop'
    rw [bind_of_error hpop, bind_of_error hpop']
    rfl
  | ok cls m' =>
    obtain ⟨rfl, -, hcls⟩ := (requireKind_tame hs' hsuper .cls _).of_ok hcheck
    rw [hcheck] at hpop hpop'
    rw [bind_of_ok hpop, bind_of_ok hpop']
    have hfind := findMethod_disguise (m := m.holding (low ++ receiver :: args)) h hcls hname
      low.length w
    unfold invokeFromClass
    cases hmethod : findMethod cls name (m.holding (low ++ receiver :: args)) with
    | error e m' =>
      rw [hmethod] at hfind
      rw [bind_of_error hmethod, bind_of_error hfind]
      rfl
    | ok method m' =>
      obtain ⟨rfl, hclosure⟩ := (findMethod_tame hs' hcls hname).of_ok hmethod
      rw [hmethod] at hfind
      rw [bind_of_ok hmethod, bind_of_ok hfind]
      exact call_disguise (m := m.holding (low ++ receiver :: args)) hs.heap h hclosure _ _ w

end Disguise

end Run

namespace Run

/-- Two ways to call a property of a receiver. If it is an instance, they come to the same; otherwise both
fail, with reports of their own. -/
def CallsAlike (m : Machine) (receiver : Value) (fast slow : EStateM.Result Failure Machine Unit) : Prop :=
  (m.heap.kindOf receiver = .ok (some .inst) → Concur fast slow) ∧
  (m.heap.kindOf receiver ≠ .ok (some .inst) →
    fast = .error (.error .noMethods) m ∧ ∃ m', slow = .error (.error .noProperties) m')

theorem CallsAlike.of_same {m : Machine} {receiver : Value} {fast slow slow' : EStateM.Result Failure Machine Unit}
    (h : CallsAlike m receiver fast slow) (hsame : SameOutcome slow' slow) : CallsAlike m receiver fast slow' := by
  refine ⟨fun hkind => (h.1 hkind).of_same hsame, fun hkind => ?_⟩
  obtain ⟨hfast, m', hslow⟩ := h.2 hkind
  refine ⟨hfast, ?_⟩
  rcases hsame with rfl | ⟨e, n, n', rfl, hn⟩
  · exact ⟨m', hslow⟩
  · cases hn.symm.trans hslow
    exact ⟨n, rfl⟩

variable {m : Machine} {name : Handle} {low args : List Value} {receiver : Value}

theorem property_callsAlike (hs : m.Sane) (hname : m.heap.IsString name)
    (hstack : m.stack = (low ++ receiver :: args).toArray) :
    CallsAlike m receiver (invokeNamed name args.length m) (readThenCall name args.length m) := by
  refine ⟨fun hkind => ?_, fun hkind => ?_⟩
  · rw [← Machine.holding_self hstack] at hs ⊢
    obtain ⟨x, rfl, hx⟩ := Heap.kindOf_eq_some hkind
    exact property_concur hs hx hname
  · have hlive := hs.value_in (i := low.length) (v := receiver) (by simp [hstack])
    rw [← Machine.holding_self hstack] at hs ⊢
    have hother := fun (values : List Value) (e : RuntimeError) =>
      requireKind_other (m := m.holding values) hlive .inst hkind e
    refine ⟨?_, m.holding (low ++ args ++ [receiver]), ?_⟩
    · unfold invokeNamed
      rw [bind_of_ok peek_of, bind_of_error (hother _ _)]
    · have hread : propertyNamed name (m.holding (low ++ args ++ [receiver])) =
          .error (.error .noProperties) (m.holding (low ++ args ++ [receiver])) := by
        unfold propertyNamed
        rw [bind_of_ok peek_top, bind_of_error (hother _ _)]
      unfold readThenCall
      rw [bind_of_ok raise_of, bind_of_error hread]

end Run

/-- **A call of a property in one instruction comes to the same as reading the property and calling
it.** Both ways succeed, and then the machines differ in nothing but objects that cannot be reached,
or both fail with the same error; only of a receiver that is no instance is the report another.
With `super`, neither the receiver nor the fields and the class of any instance matter. This holds of what
is done once the operands are known, and of the instructions themselves, started where these operands come
next in the code. -/
theorem fused_calls {m : Machine} (hs : m.Sane) {name : Handle} (hname : m.heap.IsString name)
    (low : List Value) (receiver : Value) (args : List Value) :
    (m.stack = (low ++ receiver :: args).toArray →
      Run.CallsAlike m receiver (Run.invokeNamed name args.length m) (Run.readThenCall name args.length m) ∧
      ∀ m₀, Run.operands m₀ = .ok (name, args.length) m →
        Run.CallsAlike m receiver (Run.invoke m₀) (Run.propertyThenCall args.length m₀)) ∧
    ∀ superclass, m.stack = (low ++ receiver :: args ++ [superclass]).toArray →
      (Run.Concur (Run.superInvokeNamed name args.length m)
        (Run.readSuperThenCall name args.length m) ∧
      ∀ heap w, m.heap.SameButInstances heap →
        Run.superInvokeNamed name args.length (m.disguise heap low.length w) =
          Run.onMachine (·.disguise heap low.length w)
            (Run.superInvokeNamed name args.length m)) ∧
      ∀ m₀, Run.operands m₀ = .ok (name, args.length) m →
        Run.Concur (Run.superInvoke m₀) (Run.superThenCall args.length m₀) ∧
        ∀ heap w m₁, m.heap.SameButInstances heap →
          Run.operands m₁ = .ok (name, args.length) (m.disguise heap low.length w) →
          Run.superInvoke m₁ = Run.onMachine (·.disguise heap low.length w) (Run.superInvoke m₀) := by
  refine ⟨fun hstack => ?_, fun superclass hstack => ?_⟩
  · have hbodies := Run.property_callsAlike hs hname hstack
    refine ⟨hbodies, fun m₀ h => ?_⟩
    rw [(Run.invoke_of_operands h).1]
    exact hbodies.of_same (Run.propertyThenCall_same hs hstack h)
  · have hbodies : Run.Concur (Run.superInvokeNamed name args.length m)
        (Run.readSuperThenCall name args.length m) := by
      have hs' := hs
      rw [← Machine.holding_self hstack] at hs' ⊢
      exact Run.super_concur hs' hname
    have hdisguise := fun heap w (hheap : m.heap.SameButInstances heap) =>
      Run.superInvokeNamed_disguise hs hstack hheap hname w
    refine ⟨⟨hbodies, hdisguise⟩, fun m₀ h => ?_⟩
    rw [(Run.invoke_of_operands h).2]
    refine ⟨hbodies.of_same (Run.superThenCall_same hs hstack h), fun heap w m₁ hheap h₁ => ?_⟩
    rw [(Run.invoke_of_operands h₁).2]
    exact hdisguise heap w hheap

namespace Machine

/-- A host makes an object and keeps it on the stack. -/
def make (o : Object) (m : Machine) : Machine := Run.leaves (do Run.push (.obj (← Run.alloc o))) m

theorem Assembled.make {m : Machine} (hm : m.Assembled) (o : Object) (hkind : o.kind ≠ .string)
    (hrefs : ∀ r ∈ o.references, m.heap.contains r = true) (hfit : m.heap.Fit o) :
    (make o m).Assembled := hm.object o hkind hrefs hfit

/-- A machine that collects at every allocation. On its stack is a name. -/
def named : Machine :=
  Run.leaves (do Run.push (.obj (← Run.intern "greet"))) <|
    create { config := { stress := true }, journal := { keeps := none } } {} fun _ => ⟨0⟩

/-- A function of one parameter. Its code has the operands of a call with one argument. -/
def greeting : Function :=
  { (default : Function) with
    arity := 1
    chunk := { code := #[0, 1], lines := #[1, 1], constants := #[.obj ⟨3, 0⟩] } }

/-- A class with a method. -/
def greeter : Class where
  name := ⟨3, 0⟩
  methods := ({} : Table).insert ⟨⟨3, 0⟩, fnv1a "greet"⟩ (.obj ⟨5, 0⟩)

/-- A method, its class, and an instance. -/
def staffed : Machine :=
  make (.inst { cls := ⟨6, 0⟩ }) <| make (.cls greeter) <|
    make (.closure { function := ⟨4, 0⟩ }) <| make (.function greeting) named

theorem assembled_staffed : staffed.Assembled := by
  have hnamed : named.Assembled := .string "greet" (.create _ none _ _)
  have hfunction := hnamed.make (.function greeting) (by simp [Object.kind])
    (by decide +kernel) fun n hn => by cases hn
  have hclosure := hfunction.make (.closure { function := ⟨4, 0⟩ }) (by simp [Object.kind])
    (by decide +kernel) ⟨by decide +kernel, by simp⟩
  have hname : (make (.closure { function := ⟨4, 0⟩ })
      (make (.function greeting) named)).heap.IsString ⟨3, 0⟩ :=
    Heap.isString_of_kind (by decide +kernel)
  have hhash : (make (.closure { function := ⟨4, 0⟩ })
      (make (.function greeting) named)).heap.hashOf ⟨3, 0⟩ = fnv1a "greet" := by
    decide +kernel
  have hkeyed := Heap.keyed_empty.set hname (.obj ⟨5, 0⟩)
  rw [hhash] at hkeyed
  have hcls := hclosure.make (.cls greeter) (by simp [Object.kind]) (by decide +kernel)
    ⟨hname, hkeyed⟩
  exact hcls.make (.inst { cls := ⟨6, 0⟩ }) (by simp [Object.kind]) (by decide +kernel)
    ⟨by decide +kernel, Heap.keyed_empty⟩

/-- The method has been called. The instance is the receiver of a call with one argument, and also of a call
with one argument of a method of the superclass on top. -/
def fetching : Machine :=
  (Run.leaves (Run.call ⟨5, 0⟩ 1) staffed).holding [.obj ⟨7, 0⟩, .obj ⟨7, 0⟩, .obj ⟨6, 0⟩]

/-- The operands have been read. -/
def calling : Machine := Run.leaves Run.operands fetching

theorem sane_fetching : fetching.Sane := by
  have hclosure : staffed.heap.kind? ⟨5, 0⟩ = some .closure := by decide +kernel
  have hcalled := (Run.call_tame assembled_staffed.sane hclosure 1).leaves fun _ _ h => h
  refine hcalled.stack_to (fun x hx => ?_) (by decide)
  have hcases : x = ⟨7, 0⟩ ∨ x = ⟨6, 0⟩ := by simpa using hx
  rcases hcases with rfl | rfl <;> decide +kernel

theorem operands_fetching : Run.operands fetching = .ok (⟨3, 0⟩, 1) calling := by
  have hread : (match Run.operands fetching with | .ok r _ => some r | .error _ _ => none) = some (⟨3, 0⟩, 1) := by
    decide +kernel
  unfold calling Run.leaves
  split at hread
  · rename_i h
    rw [h, Option.some.inj hread]
  · cases hread

end Machine

theorem fused_calls_calling : Machine.calling.Sane ∧ Machine.calling.heap.IsString ⟨3, 0⟩ ∧
    Machine.calling.heap.kindOf (.obj ⟨7, 0⟩) = .ok (some .inst) ∧
    Run.Concur (Run.invoke Machine.fetching) (Run.propertyThenCall 1 Machine.fetching) ∧
    Run.Concur (Run.superInvoke Machine.fetching) (Run.superThenCall 1 Machine.fetching) := by
  have hs : Machine.calling.Sane := (Run.operands_tame Machine.sane_fetching).leaves fun _ _ h => h
  have hname : Machine.calling.heap.IsString ⟨3, 0⟩ := Heap.isString_of_kind (by decide +kernel)
  have hkind : Machine.calling.heap.kindOf (.obj ⟨7, 0⟩) = .ok (some .inst) := by
    decide +kernel
  obtain ⟨-, hproperty⟩ := (fused_calls hs hname [.obj ⟨7, 0⟩] (.obj ⟨7, 0⟩) [.obj ⟨6, 0⟩]).1
    (by decide +kernel)
  obtain ⟨-, hsuper⟩ := (fused_calls hs hname [] (.obj ⟨7, 0⟩) [.obj ⟨7, 0⟩]).2 (.obj ⟨6, 0⟩)
    (by decide +kernel)
  exact ⟨hs, hname, hkind, (hproperty _ Machine.operands_fetching).1 hkind,
    (hsuper _ Machine.operands_fetching).1⟩

end LoxMachine
