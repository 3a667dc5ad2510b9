import LoxMachine.Proofs.Machine.Footprints
import LoxMachine.Proofs.Machine.Operands
import LoxMachine.Proofs.Machine.Ran

/-!
# What failures leave

An instruction may fail after it has done a part of its work.

* `Machine.Spared lost m m'`: the global variables, the output and the objects that could be reached are as
  before, except that objects which are `lost` may have been freed.
* `Machine.Displaced`: the instruction calls the class in a field of an instance, and the object cannot be
  reached any more when the class has taken the place of the instance.
* `Run.Blameless x`: the action `x` never fails with an error of the user.
* `Run.Spares lost m₀ x m Q`: the action `x`, which is a part of an instruction that began in `m₀`, ends with `Q`,
  or it spares what there was if it fails with an error of the user other than that of a full output.
* `execute_spared`: every instruction does this, where what is displaced may be lost. What cannot be taken
  back is done only when no such error can follow, except that an assignment to a global variable which is not
  defined makes it and deletes it again.
-/

namespace LoxMachine

/-- A key names its string, and has its hash. -/
theorem Heap.key_eq_ok {heap : Heap} {h : Handle} {key : Key} (hkey : heap.key h = .ok key) :
    key.handle = h ∧ key.hash = heap.hashOf key.handle := by
  unfold Heap.key Heap.string Heap.object at hkey
  cases hc : heap.cell? h with
  | none => simp [hc, bind, Except.bind] at hkey
  | some cell =>
    obtain ⟨o, bytes⟩ := cell
    cases o <;> simp [hc, bind, Except.bind, pure, Except.pure, throw, throwThe, MonadExceptOf.throw] at hkey
    rw [← hkey]
    exact ⟨rfl, by simp [Heap.hashOf, hc]⟩

namespace Machine

variable {m m' m'' m₀ : Machine} {lost : Handle → Prop} {x : Handle}

/-- What outlives a failure is as before. What is lost may have been freed. -/
structure Spared (lost : Handle → Prop) (m m' : Machine) : Prop where
  globals : m'.globals.toMap = m.globals.toMap
  sink : m'.sink = m.sink
  objects : ∀ x, m.heap.Reachable m.roots x →
    m'.heap.cell? x = m.heap.cell? x ∨ lost x ∧ m'.heap.cell? x = none

/-! ## What has been done so far -/

/-- The heap, the global variables and the output are the same. -/
structure Untouched (m m' : Machine) : Prop where
  heap : m'.heap = m.heap
  globals : m'.globals = m.globals
  sink : m'.sink = m.sink

instance : Shifts Untouched where
  refl _ := ⟨rfl, rfl, rfl⟩
  trans h h' := ⟨h'.heap.trans h.heap, h'.globals.trans h.globals, h'.sink.trans h.sink⟩
  moves _ _ _ _ _ := ⟨rfl, rfl, rfl⟩
  stack _ _ := ⟨rfl, rfl, rfl⟩
  frames _ _ := ⟨rfl, rfl, rfl⟩
  nativeCalls _ _ := ⟨rfl, rfl, rfl⟩

/-- So are the stack and what keeps objects alive. -/
structure Unmoved (m m' : Machine) : Prop extends m.Untouched m' where
  stack : m'.stack = m.stack
  closures : m'.frames.map Frame.closure = m.frames.map Frame.closure
  opened : m'.openUpvalues = m.openUpvalues
  initName : m'.initName = m.initName

instance : Mild Unmoved where
  refl _ := ⟨⟨rfl, rfl, rfl⟩, rfl, rfl, rfl, rfl⟩
  trans h h' := ⟨Chains.trans h.toUntouched h'.toUntouched, h'.stack.trans h.stack, h'.closures.trans h.closures,
    h'.opened.trans h.opened, h'.initName.trans h.initName⟩
  moves m f rest h ip := ⟨⟨rfl, rfl, rfl⟩, rfl, by simp [h], rfl, rfl⟩

/-- What keeps objects alive beside a stack. -/
theorem Unmoved.roots_with (h : m.Unmoved m') (stack : Array Value) :
    { m' with stack }.roots = { m with stack }.roots := by
  have hframes : m'.frames.reverse.map Frame.closure = m.frames.reverse.map Frame.closure := by
    rw [List.map_reverse, List.map_reverse, h.closures]
  simp only [roots, handles, hframes, h.opened, h.globals, h.initName]

theorem Unmoved.roots (h : m.Unmoved m') : m'.roots = m.roots :=
  (h.roots_with m'.stack).trans (by rw [h.stack])

/-- The stack is the same. -/
def SameStack (m m' : Machine) : Prop := m'.stack = m.stack

instance : Mild SameStack where
  refl _ := rfl
  trans h h' := Eq.trans h' h
  moves _ _ _ _ _ := rfl

instance (kind : ObjectKind) : Makes SameStack kind := ⟨fun _ _ _ _ => rfl⟩

instance (kind : ObjectKind) : Alters SameStack kind := ⟨fun _ _ _ _ _ => rfl⟩

instance : Opens SameStack := ⟨fun _ _ => rfl⟩

/-- The global variables and the output are the same. -/
structure Unseen (m m' : Machine) : Prop where
  globals : m'.globals = m.globals
  sink : m'.sink = m.sink

instance : Mild Unseen where
  refl _ := ⟨rfl, rfl⟩
  trans h h' := ⟨h'.globals.trans h.globals, h'.sink.trans h.sink⟩
  moves _ _ _ _ _ := ⟨rfl, rfl⟩

instance (kind : ObjectKind) : Makes Unseen kind := ⟨fun _ _ _ _ => ⟨rfl, rfl⟩⟩

instance : Opens Unseen := ⟨fun _ _ => ⟨rfl, rfl⟩⟩

/-- What there was is as before and can still be reached, unless it is lost, so that an object may be made. -/
structure Near (lost : Handle → Prop) (m m' : Machine) : Prop where
  tidy : m'.heap.Tidy
  unseen : m.Unseen m'
  objects : ∀ x, m.heap.Reachable m.roots x →
    m'.heap.cell? x = m.heap.cell? x ∧ (lost x ∨ m'.heap.Reachable m'.roots x)

theorem Untouched.unseen (h : m.Untouched m') : m.Unseen m' := ⟨h.globals, h.sink⟩

theorem Unmoved.near (h : m.Unmoved m') (ht : m.heap.Tidy) : m.Near lost m' where
  tidy := h.heap ▸ ht
  unseen := h.unseen
  objects x hx := by
    rw [h.heap, h.roots]
    exact ⟨rfl, .inr hx⟩

/-- The next instruction, of which the bytes `opcode` have been read, calls a field of an instance, and the
object cannot be reached when the class in that field has taken the place of the instance. -/
inductive Displaced (m : Machine) (opcode : List UInt8) (x : Handle) : Prop
  | intro {f : Frame} {rest : List Frame} {name count : UInt8} {index : Nat} {target cls : Handle}
      {i : Instance} {key : Key} (frames : m.frames = f :: rest) (code : m.GoesOn f (opcode ++ [name, count]))
      (constant : m.HasConstant name (.obj key.handle)) (place : index + 1 + count.toNat = m.stack.size)
      (receiver : m.stack[index]? = some (.obj target)) (inst : m.heap.inst target = .ok i)
      (field : i.fields.get? key = some (.obj cls)) (kind : m.heap.kind? cls = some .cls)
      (unreachable : ¬m.heap.Reachable { m with stack := put m.stack index (.obj cls) }.roots x)

/-- More has been read before. -/
theorem Displaced.before {bs : List UInt8} (h : m.Consumes bs m') (hx : m'.Displaced [] x) :
    m.Displaced bs x := by
  obtain ⟨hframes, ⟨g', hg', hcode⟩, hconstant, hplace, hreceiver, hinst, hfield, hkind, hunreachable⟩ := hx
  have hnamed := hconstant.before h
  obtain ⟨f, rest, hf, ⟨g, hg, hholds⟩, rfl⟩ := h
  cases hframes
  rw [hg] at hg'
  cases hg'
  refine ⟨hf, ⟨g', hg, hholds.concat hcode⟩, hnamed, hplace, hreceiver, hinst, hfield, hkind, ?_⟩
  simpa [roots, handles, hf] using hunreachable

/-- The reports do not matter. -/
theorem Displaced.congr {heap : Heap} {opcode : List UInt8} (hcells : ∀ x, heap.cell? x = m.heap.cell? x)
    (hx : { m with heap }.Displaced opcode x) : m.Displaced opcode x := by
  obtain ⟨hframes, ⟨g, hg, hcode⟩, ⟨f', rest', g', hf', hg', hconstant⟩, hplace, hreceiver, hinst, hfield, hkind,
    hunreachable⟩ := hx
  have hfunction : ∀ x, heap.function x = m.heap.function x := fun x => by
    unfold Heap.function Heap.object
    rw [hcells]
  refine ⟨hframes, ⟨g, (hfunction _).symm.trans hg, hcode⟩,
    ⟨f', rest', g', hf', (hfunction _).symm.trans hg', hconstant⟩, hplace, hreceiver, ?_, hfield, ?_,
    fun h => hunreachable (h.congr hcells)⟩
  · unfold Heap.inst Heap.object at hinst ⊢
    rwa [← hcells]
  · exact (Heap.kind?_congr (hcells _)).symm.trans hkind

theorem Spared.still (h : m.Spared lost m') (h' : m'.Untouched m'') : m.Spared lost m'' where
  globals := h'.globals ▸ h.globals
  sink := h'.sink.trans h.sink
  objects := h'.heap ▸ h.objects

theorem Untouched.spared (h : m.Untouched m') : m.Spared lost m' :=
  Spared.still ⟨rfl, rfl, fun _ _ => .inl rfl⟩ h

/-- **An object is made.** Its handle named nothing before. -/
theorem Near.make (h : m.Near lost m') (roots : Thunk (List Handle)) (hroots : roots.get = m'.roots)
    (o : Object) : m.Spared lost { m' with heap := (m'.heap.alloc roots o).2 } where
  globals := congrArg _ h.unseen.globals
  sink := h.unseen.sink
  objects x hx := by
    obtain ⟨hcell, hreach⟩ := h.objects x hx
    have ha := Heap.alloc_allocates h.tidy roots o
    rcases hreach with hlost | hreach
    · cases hnow : (m'.heap.alloc roots o).2.cell? x with
      | none => exact .inr ⟨hlost, rfl⟩
      | some cell =>
        have hne : x ≠ (m'.heap.alloc roots o).1 := by
          rintro rfl
          have hnew := Heap.contains_alloc h.tidy roots o
          rw [Heap.contains, hcell, ← Heap.contains, hx.contains] at hnew
          cases hnew
        exact .inl ((ha.old hne hnow).symm.trans hcell)
    · refine .inl (((ha.kept ?_).2).trans hcell)
      exact hreach.mono fun r hr => List.mem_append_right _ (hroots ▸ hr)

/-- A state that is taken for another one in which the same can be reached. -/
theorem Spared.congr (h : m'.Spared lost m'') (hglobals : m'.globals = m.globals) (hsink : m'.sink = m.sink)
    (hcells : ∀ x, m'.heap.cell? x = m.heap.cell? x) (hroots : m'.roots = m.roots) :
    m.Spared lost m'' where
  globals := hglobals ▸ h.globals
  sink := h.sink.trans hsink
  objects x hx := by
    rw [← hcells]
    refine h.objects x ?_
    rw [hroots]
    exact hx.congr hcells

end Machine

namespace Run

open Machine

variable {α β : Type} {x : Run α} {g : α → Run β} {m m' m₀ : Machine} {lost : Handle → Prop}

/-! ## Blame -/

/-- The action never fails with an error of the user. -/
class Blameless (x : Run α) : Prop where
  never : ∀ {m m' : Machine} {r : RuntimeError}, x m = .error (.error r) m' → r.isUser = false

instance (a : α) : Blameless (pure a : Run α) := ⟨nofun⟩

theorem blameless_fail {r : RuntimeError} (hr : r.isUser = false) : Blameless (fail r : Run α) := by
  refine ⟨fun h => ?_⟩
  cases h
  exact hr

theorem Blameless.bind [hx : Blameless x] (hg : ∀ a, Blameless (g a)) : Blameless (x >>= g) := by
  refine ⟨fun {m m' r} h => ?_⟩
  change EStateM.bind x g m = _ at h
  unfold EStateM.bind at h
  split at h
  · exact (hg _).never h
  · rename_i e _ hm
    cases h
    exact hx.never hm

instance [Blameless x] [hg : ∀ a, Blameless (g a)] : Blameless (x >>= g) := .bind hg

instance {p : Prop} [Decidable p] {y : Run α} [hx : Blameless x] [hy : Blameless y] :
    Blameless (if p then x else y) := by
  split
  · exact hx
  · exact hy

instance : Blameless (get : Run Machine) := ⟨nofun⟩

instance (f : Machine → α × Machine) : Blameless (MonadStateOf.modifyGet f : Run α) := ⟨nofun⟩

instance (f : Machine → Machine) : Blameless (modify f : Run Unit) := ⟨nofun⟩

theorem Blameless.get {g : Machine → Run β} (hg : ∀ m, Blameless (g m)) : Blameless (MonadState.get >>= g) :=
  .bind hg

instance (q : Heap → Except Fault α) : Blameless (look q) := by
  refine ⟨fun {m m' r} h => ?_⟩
  cases hq : q m.heap with
  | ok a =>
    rw [look_ok hq] at h
    cases h
  | error e =>
    rw [look_error hq] at h
    cases h

instance (u : Heap → Except Fault Heap) : Blameless (update u) := by
  refine ⟨fun {m m' r} h => ?_⟩
  unfold update at h
  split at h <;> cases h

instance : Blameless pop := by
  have : Blameless (fail .stackUnderflow : Run Value) := blameless_fail rfl
  unfold pop
  refine .get fun m => ?_
  split <;> infer_instance

instance (i : Nat) : Blameless (slot i) := by
  have : Blameless (fail .stackUnderflow : Run Value) := blameless_fail rfl
  unfold slot
  refine .get fun m => ?_
  split <;> infer_instance

instance (d : Nat) : Blameless (below d) := by
  have : Blameless (fail .stackUnderflow : Run Nat) := blameless_fail rfl
  unfold below
  dsimp only
  infer_instance

instance (o : Object) : Blameless (alloc o) := inferInstanceAs (Blameless (MonadStateOf.modifyGet _))

instance : Blameless frame := by
  have : Blameless (fail .noActiveFrame : Run Frame) := blameless_fail rfl
  unfold frame
  refine .get fun m => ?_
  split <;> infer_instance

instance : Blameless readByte := by
  have : ∀ e, Blameless (fail (.decode e) : Run UInt8) := fun e => blameless_fail rfl
  unfold readByte runningChunk jumpTo
  refine .bind fun f => .bind fun c => ?_
  split <;> infer_instance

instance (i : UInt8) : Blameless (frameUpvalue i) := by
  have : Blameless (fail (.decode (.badConstant i)) : Run Handle) := blameless_fail rfl
  unfold frameUpvalue
  refine .bind fun f => .bind fun c => ?_
  split <;> infer_instance

instance (index : Nat) : Blameless (captureUpvalue index) := by
  unfold captureUpvalue
  refine .get fun m => .bind fun found => ?_
  split <;> infer_instance

instance (base count : Nat) (upvalues : Array Handle) : Blameless (captures base count upvalues) := by
  induction count generalizing upvalues with
  | zero => exact inferInstanceAs (Blameless (pure _))
  | succ count ih =>
    unfold captures
    exact .bind fun origin => .bind fun index => inferInstance

instance (last : Nat) (opened : List Handle) : Blameless (closeFrom last opened) := by
  induction opened with
  | nil => exact inferInstanceAs (Blameless (pure ()))
  | cons u rest ih =>
    unfold closeFrom
    refine .bind fun u => ?_
    split <;> infer_instance

instance (last : Nat) : Blameless (closeUpvalues last) := by
  unfold closeUpvalues
  infer_instance

instance : Blameless closeTop := by
  unfold closeTop
  infer_instance

/-! ## Parts of an instruction -/

/-- An error of the user, unless the output is full, spares what there was. -/
def Forgiven (lost : Handle → Prop) (m₀ : Machine) (e : Failure) (m : Machine) : Prop :=
  ∀ r, e = .error r → r.isUser = true → (∀ reason, r ≠ .output reason) → m₀.Spared lost m

/-- The action ends with `Q`, or what there was in `m₀` is spared. -/
abbrev Spares (lost : Handle → Prop) (m₀ : Machine) (x : Run α) (m : Machine) (Q : α → Machine → Prop) : Prop :=
  Ends (Forgiven lost m₀) x m Q

theorem Blameless.ends [hx : Blameless x] : Spares lost m₀ x m fun _ _ => True := by
  unfold Spares Ends
  cases h : x m with
  | ok a m' => trivial
  | error e m' =>
    rintro r rfl hr
    rw [hx.never h] at hr
    cases hr

/-- What else is known of the end of an action. -/
theorem Ends.both {E E' : Failure → Machine → Prop} {Q Q' : α → Machine → Prop} (h : Ends E x m Q)
    (h' : Ends E' x m Q') : Ends E x m fun a m' => Q a m' ∧ Q' a m' :=
  (h.and h').weaken fun _ _ he => he.1

/-- An action for which there is no blame, and what else is known of it. -/
theorem Blameless.along (R : Machine → Machine → Prop) [Blameless x] [Along R x] :
    Spares lost m₀ x m fun _ m' => R m m' :=
  (Blameless.ends.both (Along.ends (R := R))).mono fun _ _ h => h.2

/-- An action before anything is done that lasts. -/
theorem Along.unmoved [Along Unmoved x] (h : m₀.Unmoved m) : Spares lost m₀ x m fun _ m' => m₀.Unmoved m' :=
  (Along.ends (R := Unmoved)).weaken (fun _ _ he _ _ _ _ => (Chains.trans h he).toUntouched.spared)
    |>.mono fun _ _ he => Chains.trans h he

/-- An action that changes the stack and the calls at most. -/
theorem Along.spares (R : Machine → Machine → Prop) [Along R x] (hR : ∀ m', R m m' → m.Untouched m')
    (h : m₀.Spared lost m) : Spares lost m₀ x m fun _ m' => m₀.Spared lost m' ∧ R m m' :=
  (Along.ends (R := R)).weaken (fun _ _ he _ _ _ _ => h.still (hR _ he))
    |>.mono fun _ _ he => ⟨h.still (hR _ he), he⟩

theorem Along.still [Along Untouched x] (h : m₀.Spared lost m) :
    Spares lost m₀ x m fun _ m' => m₀.Spared lost m' ∧ m.Untouched m' :=
  Along.spares Untouched (fun _ => id) h

/-- An object is made while everything is still there. -/
theorem alloc_spared (h : m₀.Near lost m) (o : Object) :
    Spares lost m₀ (alloc o) m fun _ m' => m₀.Spared lost m' :=
  .modifyGet (h.make (.mk fun _ => m.roots) rfl o)

/-- There is room for a value. -/
theorem push_spared (hroom : m.stack.size < maxStack) (v : Value) : Spares lost m₀ (push v) m fun _ _ => True := by
  unfold push
  exact .get (.ite (fun hfull => absurd hfull (Nat.not_le.2 hroom)) fun _ => .modify trivial)

theorem pop_spared : Spares lost m₀ pop m fun _ m' => m.Untouched m' ∧ m'.stack.size + 1 = m.stack.size := by
  unfold pop
  refine .get ?_
  cases hback : m.stack.back? with
  | none =>
    refine .fail fun r hr huser _ => ?_
    cases hr
    cases huser
  | some v =>
    refine .bind (Q := fun _ m' => m.Untouched m' ∧ m'.stack.size + 1 = m.stack.size)
      (.modify ⟨⟨rfl, rfl, rfl⟩, ?_⟩) fun _ _ h => .pure h
    have hpos : 0 < m.stack.size := by
      rw [Array.back?_eq_getElem?] at hback
      have := (Array.getElem?_eq_some_iff.1 hback).1
      omega
    rw [Array.size_pop]
    omega

theorem look_spared (q : Heap → Except Fault α) :
    Spares lost m₀ (look q) m fun a m' => m' = m ∧ q m.heap = .ok a := by
  unfold look
  refine .get ?_
  cases hq : q m.heap with
  | ok a => exact .pure ⟨rfl, rfl⟩
  | error e => exact fun _ he => nomatch he

/-! ## Variables -/

theorem defineGlobal_spared : Spares lost m defineGlobal m fun _ _ => True := by
  have h : m.Unmoved m := Chains.refl m
  unfold defineGlobal
  refine (Along.unmoved h).bind fun name m₁ h => (Along.unmoved h).bind fun v m₂ h =>
    (Along.unmoved h).bind fun key m₃ h => ?_
  exact Blameless.ends

/-- **A global variable that is made by mistake is deleted again.** -/
theorem setGlobal_spared (hs : m.Sane) : Spares lost m setGlobal m fun _ _ => True := by
  have h : m.Unmoved m := Chains.refl m
  unfold setGlobal
  refine (Along.unmoved h).bind fun name m₁ h => (look_spared _).bind fun key m₂ hkey => ?_
  obtain ⟨rfl, hkey⟩ := hkey
  refine (Along.unmoved h).bind fun v m₃ h₃ => ?_
  have hsound : m₃.globals.Sound m.heap.hashOf := h₃.globals ▸ hs.keyed.sound
  have hhash : key.hash = m.heap.hashOf key.handle := h.heap ▸ (Heap.key_eq_ok hkey).2
  obtain ⟨hset, hnew, hmap⟩ := hsound.set hhash v
  refine .bind (Q := fun isNew m' => isNew = (m₃.globals.set key v).1 ∧
    m' = { m₃ with globals := (m₃.globals.set key v).2 }) (.modifyGet ⟨rfl, rfl⟩) fun isNew m₄ h₄ => ?_
  obtain ⟨hisNew, rfl⟩ := h₄
  refine .ite (fun hyes => ?_) fun _ => .pure trivial
  have hdelete := (hset.delete hhash).2.2
  have hspared : m.Spared lost { m₃ with globals := ((m₃.globals.set key v).2.delete key).2 } := by
    refine ⟨?_, h₃.sink, fun x _ => .inl (h₃.heap ▸ rfl)⟩
    dsimp only
    rw [hdelete, hmap, Function.update_idem, ← h₃.globals, Function.update_eq_self_iff]
    rw [hisNew, hnew] at hyes
    exact (Option.isNone_iff_eq_none.1 hyes).symm
  refine .bind (Q := fun _ m' => m' = { m₃ with globals := ((m₃.globals.set key v).2.delete key).2 })
    (.modify rfl) fun _ m₅ h₅ => ?_
  subst h₅
  refine (look_spared _).bind fun text m₆ htext => ?_
  obtain ⟨rfl, -⟩ := htext
  exact .fail fun _ _ _ _ => hspared

theorem setUpvalue_spared : Spares lost m setUpvalue m fun _ _ => True := by
  have h : m.Unmoved m := Chains.refl m
  unfold setUpvalue
  refine (Along.unmoved h).bind fun i m₁ h => (Along.unmoved h).bind fun u m₂ h =>
    (Along.unmoved h).bind fun v m₃ h => (Along.unmoved h).bind fun w m₄ h => ?_
  cases w with
  | stacked index => exact (Along.still h.toUntouched.spared).mono fun _ _ _ => trivial
  | closed _ => exact Blameless.ends

/-! ## Properties -/

theorem fieldOrClass_spared {target name : Handle} : Spares lost m₀ (fieldOrClass target name) m fun found m' =>
    m' = m ∧ ∃ i key, m.heap.inst target = .ok i ∧ key.handle = name ∧ found = (i.fields.get? key, i.cls) := by
  unfold fieldOrClass
  refine (look_spared _).bind fun i m₁ hi => (look_spared _).bind fun key m₂ hkey => .pure ?_
  obtain ⟨rfl, hi⟩ := hi
  obtain ⟨rfl, hkey⟩ := hkey
  exact ⟨rfl, i, key, hi, (Heap.key_eq_ok hkey).1, rfl⟩

/-- A bound method is made last, when everything is still there. -/
theorem bindMethod_spared (ht : m₀.heap.Tidy) (h : m₀.Unmoved m) (cls name : Handle) :
    Spares lost m₀ (bindMethod cls name) m fun _ _ => True := by
  unfold bindMethod
  refine (Along.unmoved h).bind fun method m₁ h => (Along.unmoved h).bind fun receiver m₂ h =>
    (alloc_spared (h.near ht) _).bind fun bound m₃ h => (Along.still h).bind fun _ m₄ h => ?_
  exact (Along.still h.1).mono fun _ _ _ => trivial

theorem getProperty_spared (ht : m.heap.Tidy) : Spares lost m getProperty m fun _ _ => True := by
  have h : m.Unmoved m := Chains.refl m
  unfold getProperty
  refine (Along.unmoved h).bind fun name m₁ h => (Along.unmoved h).bind fun v m₂ h =>
    (Along.unmoved h).bind fun target m₃ h => (Along.unmoved h).bind fun found m₄ h => ?_
  obtain ⟨v | v, cls⟩ := found
  · exact bindMethod_spared ht h cls name
  · refine (Along.still h.toUntouched.spared).bind fun _ m₅ h => ?_
    exact (Along.still h.1).mono fun _ _ _ => trivial

/-- The field is set when nothing can fail any more. -/
theorem setProperty_spared (hsize : m.stack.size ≤ maxStack) : Spares lost m setProperty m fun _ _ => True := by
  have h : m.Unmoved m := Chains.refl m
  unfold setProperty
  refine (Along.unmoved h).bind fun name m₁ h => (Along.unmoved h).bind fun v m₂ h =>
    (Along.unmoved h).bind fun target m₃ h => (Along.unmoved h).bind fun key m₄ h =>
    (Along.unmoved h).bind fun v m₅ h => (Blameless.along SameStack).bind fun _ m₆ h₆ =>
    pop_spared.bind fun v m₇ h₇ => pop_spared.bind fun _ m₈ h₈ => push_spared ?_ v
  have hstack : m₆.stack = m.stack := Eq.trans h₆ h.stack
  have h₇ := h₇.2
  have h₈ := h₈.2
  rw [hstack] at h₇
  omega

theorem popClass_spared (h : m₀.Spared lost m) : Spares lost m₀ popClass m fun _ m' =>
    m₀.Spared lost m' ∧ m'.stack.size + 1 = m.stack.size := by
  unfold popClass
  refine pop_spared.bind fun v m₁ h₁ => (Along.spares Unmoved (fun _ h => h.toUntouched) (h.still h₁.1)).mono
    fun _ m₂ h₂ => ⟨h₂.1, ?_⟩
  rw [h₂.2.stack]
  exact h₁.2

/-- The superclass is on top of the stack, so that there is room for the method in its place. -/
theorem getSuper_spared (hsize : m.stack.size ≤ maxStack) : Spares lost m getSuper m fun _ _ => True := by
  have h : m.Unmoved m := Chains.refl m
  unfold getSuper bindMethod
  refine (Along.unmoved h).bind fun name m₁ h => (popClass_spared h.toUntouched.spared).bind fun cls m₂ h₂ => ?_
  refine (Along.spares Unmoved (fun _ h => h.toUntouched) h₂.1).bind fun method m₃ h₃ =>
    (Along.spares Unmoved (fun _ h => h.toUntouched) h₃.1).bind fun receiver m₄ h₄ =>
    (Blameless.along SameStack).bind fun bound m₅ h₅ => pop_spared.bind fun _ m₆ h₆ => push_spared ?_ _
  have hstack : m₅.stack = m₂.stack := Eq.trans h₅ (h₄.2.stack.trans h₃.2.stack)
  have h₂ := h₂.2
  have h₆ := h₆.2
  rw [hstack] at h₆
  rw [h.stack] at h₂
  omega

/-! ## Operators -/

theorem intern_spared (ht : m₀.heap.Tidy) (h : m₀.Unmoved m) (s : String) :
    Spares lost m₀ (intern s) m fun _ m' => m₀.Spared lost m' := by
  let roots : Thunk (List Handle) := .mk fun _ => m.roots
  refine .modifyGet ⟨congrArg _ h.globals, h.sink, fun x hx => .inl ?_⟩
  rw [← h.heap, ← h.roots] at hx
  rw [← h.heap]
  exact Heap.keeps_intern (h.heap ▸ ht) roots s x hx

theorem add_spared (ht : m.heap.Tidy) : Spares lost m add m fun _ _ => True := by
  have h : m.Unmoved m := Chains.refl m
  have hlast : ∀ {m'} (_ : m.Spared lost m') (v : Value),
      Spares lost m (do let _ ← pop; let _ ← pop; push v) m' fun _ _ => True := fun h v =>
    (Along.still h).bind fun _ _ h => (Along.still h.1).bind fun _ _ h =>
      (Along.still h.1).mono fun _ _ _ => trivial
  unfold add
  refine (Along.unmoved h).bind fun b m₁ h => (Along.unmoved h).bind fun a m₂ h => ?_
  split
  · exact hlast h.toUntouched.spared _
  · refine (Along.unmoved h).bind fun s m₃ h => (Along.unmoved h).bind fun t m₄ h => ?_
    split
    · unfold concatenate
      exact (Along.unmoved h).bind fun s m₅ h => (Along.unmoved h).bind fun t m₆ h =>
        (intern_spared ht h _).bind fun _ m₇ h => hlast h _
    · exact .fail fun _ _ _ _ => h.toUntouched.spared

/-- What is written stays written, but only a full output fails after that. -/
theorem print_spared : Spares lost m print m fun _ _ => True := by
  have h : m.Spared lost m := Untouched.spared (Chains.refl m)
  unfold print
  refine (Along.still h).bind fun v m₁ h => (Along.still h.1).bind fun text m₂ h =>
    .bind (Q := fun _ _ => True) (.modifyGet trivial) fun accepted m₃ _ => ?_
  refine .ite (fun _ => .fail fun r hr _ hout => ?_) fun _ => .pure trivial
  cases hr
  exact absurd rfl (hout _)

/-! ## Calls -/

/-- The new instance is made first, when everything is still there, or all but what is lost. -/
theorem instantiate_spared (h : m₀.Near lost m) (cls : Handle) (count : Nat) :
    Spares lost m₀ (instantiate cls count) m fun _ _ => True := by
  have hcall : ∀ {m' : Machine} (_ : m₀.Spared lost m') (init : Handle),
      Spares lost m₀ (call init count) m' fun _ _ => True := fun h init => (Along.still h).mono fun _ _ _ => trivial
  have hnone : ∀ {m' : Machine} (_ : m₀.Spared lost m'), Spares lost m₀
      (if count ≠ 0 then fail (.arityMismatch 0 count) else pure ()) m' fun _ _ => True := fun h =>
    .ite (fun _ => .fail fun _ _ _ _ => h) fun _ => .pure trivial
  unfold instantiate
  refine (alloc_spared h _).bind fun target m₁ h => (Along.still h).bind fun _ m₂ h =>
    (Along.still h.1).bind fun c m₃ h => .get ((Along.still h.1).bind fun key m₄ h => ?_)
  dsimp only
  split
  · refine (Along.still h.1).bind fun init m₅ h => ?_
    cases init with
    | some init => exact hcall h.1 init
    | none => exact hnone h.1
  · exact hnone h.1

theorem kind?_of_object {heap : Heap} {h : Handle} {o : Object} (ho : heap.object h = .ok o) :
    heap.kind? h = some o.kind := by
  unfold Heap.object at ho
  split at ho
  · rename_i hc
    cases ho
    exact Heap.kind?_of_cell? hc
  · cases ho

/-- Only a class that is called makes an object. -/
theorem callValue_spared (h : m₀.Spared lost m) {callee : Value}
    (hclass : ∀ x, callee = .obj x → m.heap.kind? x = some .cls → m₀.Near lost m) (count : Nat) :
    Spares lost m₀ (callValue callee count) m fun _ _ => True := by
  unfold callValue
  split
  · refine (look_spared _).bind fun o m₁ hlook => ?_
    obtain ⟨rfl, hlook⟩ := hlook
    split
    · refine (Along.still h).bind fun _ m₂ h => ?_
      exact (Along.still h.1).mono fun _ _ _ => trivial
    · exact instantiate_spared (hclass _ rfl (kind?_of_object hlook)) _ count
    · exact (Along.still h).mono fun _ _ _ => trivial
    · exact (Along.still h).mono fun _ _ _ => trivial
    · exact .fail fun _ _ _ _ => h
  · exact .fail fun _ _ _ _ => h

theorem callInstruction_spared (ht : m.heap.Tidy) : Spares lost m callInstruction m fun _ _ => True := by
  have h : m.Unmoved m := Chains.refl m
  unfold callInstruction
  refine (Along.unmoved h).bind fun count m₁ h => ?_
  exact (Along.unmoved h).bind fun callee m₂ h =>
    callValue_spared h.toUntouched.spared (fun _ _ _ => h.near ht) _

/-- **A field takes the place of the receiver**, which is lost if nothing else refers to it and an object
is made. -/
theorem invoke_spared (ht : m.heap.Tidy) (hlost : ∀ x, m.Displaced [] x → lost x) :
    Spares lost m invoke m fun _ _ => True := by
  have h : m.Unmoved m := Chains.refl m
  unfold invoke
  refine ((Along.unmoved h).both readName_consumes).bind fun name m₁ h₁ =>
    ((Along.unmoved h₁.1).both readByte_consumes).bind fun count m₂ h₂ => ?_
  obtain ⟨-, n, hname, hconstant⟩ := h₁
  obtain ⟨h, hcount⟩ := h₂
  obtain ⟨f, rest, hf, hgoes, hm₂⟩ := hname.append hcount
  refine ((Along.unmoved h).both peek_consuming).bind fun v m₃ h₃ => ?_
  obtain ⟨h, rfl, index, hplace, hreceiver⟩ := h₃
  refine (requireKind_ends (fun _ _ _ _ => h.toUntouched.spared) (fun _ => nofun)).bind fun target m₄ h₄ => ?_
  obtain ⟨rfl, rfl, -⟩ := h₄
  refine fieldOrClass_spared.bind fun found m₅ h₅ => ?_
  obtain ⟨rfl, i, key, hinst, hkey, rfl⟩ := h₅
  cases hfield : i.fields.get? key with
  | none => exact (Along.still h.toUntouched.spared).mono fun _ _ _ => trivial
  | some v =>
    refine ((Along.still h.toUntouched.spared).both poke_consuming).bind fun _ m₆ h₆ => ?_
    obtain ⟨⟨hspared, huntouched⟩, index', hplace', rfl⟩ := h₆
    obtain rfl : index' = index := by omega
    refine callValue_spared hspared (fun cls hcls hkind => ?_) _
    subst hcls
    refine ⟨h.heap ▸ ht, (Chains.trans h.toUntouched huntouched).unseen, fun x hx => ⟨h.heap ▸ rfl, ?_⟩⟩
    refine or_iff_not_imp_right.2 fun hunreachable => hlost x ?_
    rw [h.stack] at hplace hreceiver
    rw [h.roots_with, h.stack] at hunreachable
    dsimp only at hkind hunreachable
    rw [h.heap] at hinst hkind hunreachable
    rw [← hkey] at hconstant
    exact ⟨hf, hgoes, hconstant, hplace, hreceiver, hinst, hfield, hkind, hunreachable⟩

/-! ## Captured variables -/

theorem makeClosure_spared (hs : m.Sane) : Spares lost m makeClosure m fun _ _ => True := by
  have h : m.Unmoved m := Chains.refl m
  unfold makeClosure
  refine ((Along.unmoved h).both (readObject_tame hs .function)).bind fun function m₁ h₁ =>
    (look_spared _).bind fun f m₂ h₂ => ?_
  obtain ⟨rfl, -⟩ := h₂
  obtain ⟨h, hadvances, -⟩ := h₁
  refine ((Along.unmoved h).both (frame_tame hadvances.sane)).bind fun fr m₃ h₃ => ?_
  obtain ⟨h, rfl, -⟩ := h₃
  have hnone : ∀ u ∈ (#[] : Array Handle), Captured m₃ u := by simp
  have hcaptures := captures_tame fr.base f.upvalueCount hadvances.sane hnone
  refine ((Blameless.along Unseen).both hcaptures).bind fun us m₄ h₄ => ?_
  obtain ⟨hunseen, hcarries, -⟩ := h₄
  refine (alloc_spared ⟨hcarries.sane.heap.tidy, Chains.trans h.unseen hunseen, fun x hx => ?_⟩ _).bind
    fun _ m₅ h₅ => (Along.still h₅).mono fun _ _ _ => trivial
  rw [← h.heap, ← h.roots] at hx
  rw [← h.heap]
  exact ⟨(hcarries.kept x hx).2, .inr (hcarries.kept x hx).1⟩

/-- The result takes the place of the slots of the call, among which it was. -/
theorem ret_spared (hsize : m.stack.size ≤ maxStack) : Spares lost m ret m fun _ _ => True := by
  unfold ret
  refine pop_spared.bind fun v m₁ h₁ => (Blameless.along Unmoved).bind fun f m₂ h₂ =>
    .bind (Q := fun _ m' => m'.stack = m₂.stack) (.modify rfl) fun _ m₃ h₃ =>
    (Blameless.along SameStack).bind fun _ m₄ h₄ => .get (.ite (fun _ => Blameless.ends) fun _ => ?_)
  refine .bind (Q := fun _ m' => m'.stack = m₄.stack.shrink f.base) (.modify rfl) fun _ m₅ h₅ =>
    (push_spared ?_ v).bind fun _ _ _ => .pure trivial
  have hstack : m₄.stack = m₁.stack := Eq.trans h₄ (h₃.trans h₂.stack)
  rw [h₅, hstack, Array.size_shrink]
  have h₁ := h₁.2
  omega

/-! ## Classes -/

theorem makeClass_spared (ht : m.heap.Tidy) : Spares lost m makeClass m fun _ _ => True := by
  have h : m.Unmoved m := Chains.refl m
  unfold makeClass
  exact (Along.unmoved h).bind fun name m₁ h => (alloc_spared (h.near ht) _).bind fun cls m₂ h =>
    (Along.still h).mono fun _ _ _ => trivial

theorem inherit_spared : Spares lost m inherit m fun _ _ => True := by
  have h : m.Unmoved m := Chains.refl m
  unfold inherit
  exact (Along.unmoved h).bind fun v m₁ h => (Along.unmoved h).bind fun super m₂ h =>
    (Along.unmoved h).bind fun v m₃ h => (Along.unmoved h).bind fun sub m₄ h => Blameless.ends

theorem method_spared : Spares lost m method m fun _ _ => True := by
  have h : m.Unmoved m := Chains.refl m
  unfold method
  exact (Along.unmoved h).bind fun name m₁ h => (Along.unmoved h).bind fun v m₂ h =>
    (Along.unmoved h).bind fun c m₃ h => (Along.unmoved h).bind fun cls m₄ h =>
    (Along.unmoved h).bind fun _ m₅ h => (Along.unmoved h).bind fun key m₆ h => Blameless.ends

/-! ## Instructions -/

theorem Spares.goOn {x : Run Unit} {Q : Unit → Machine → Prop} (h : Spares lost m₀ x m Q) :
    Spares lost m₀ (do x; return false) m fun _ _ => True := h.bind fun _ _ _ => .pure trivial

/-- An instruction that changes the stack and the calls at most. -/
theorem untouched_goOn (x : Run Unit) [Along Untouched x] :
    Spares lost m (do x; return false) m fun _ _ => True :=
  (Along.still (Untouched.spared (Chains.refl m))).goOn

theorem perform_spared (op : Opcode) (hs : m.Sane)
    (hlost : op = .invoke → ∀ x, m.Displaced [] x → lost x) : Spares lost m (perform op) m fun _ _ => True := by
  have ht := hs.heap.tidy
  have h : m.Spared lost m := Untouched.spared (Chains.refl m)
  cases op with
  | constant => exact (Along.still h).bind fun v m₁ h₁ => (Along.still (x := push v) h₁.1).goOn
  | pop => exact (Along.still h).bind fun v _ _ => .pure trivial
  | defineGlobal => exact defineGlobal_spared.goOn
  | setGlobal => exact (setGlobal_spared hs).goOn
  | setUpvalue => exact setUpvalue_spared.goOn
  | getProperty => exact (getProperty_spared ht).goOn
  | setProperty => exact (setProperty_spared hs.size_le).goOn
  | getSuper => exact (getSuper_spared hs.size_le).goOn
  | add => exact (add_spared ht).goOn
  | print => exact print_spared.goOn
  | call => exact (callInstruction_spared ht).goOn
  | invoke => exact (invoke_spared ht (hlost rfl)).goOn
  | closure => exact (makeClosure_spared hs).goOn
  | closeUpvalue => exact Blameless.ends.goOn
  | ret => exact ret_spared hs.size_le
  | cls => exact (makeClass_spared ht).goOn
  | inherit => exact inherit_spared.goOn
  | method => exact method_spared.goOn
  | _ => exact untouched_goOn _

/-- The opcode has not been read. -/
theorem fetch_spared (hs : m.Sane) (hlost : ∀ x, m.Displaced [Opcode.invoke.toByte] x → lost x) :
    Spares lost m (do perform (← readOpcode)) m fun _ _ => True := by
  refine ((Along.unmoved (Chains.refl m)).both (readOpcode_consumes.both (readOpcode_tame hs))).bind
    fun op m₁ h₁ => ?_
  obtain ⟨h₁, hread, hs₁⟩ := h₁
  have hperform : Spares lost m₁ (perform op) m₁ fun _ _ => True := by
    refine perform_spared op hs₁ ?_
    rintro rfl x hx
    exact hlost x (hx.before hread)
  exact hperform.weaken fun e m' he r hr huser hout =>
    (he r hr huser hout).congr h₁.globals h₁.sink (fun x => h₁.heap ▸ rfl) h₁.roots

/-- **An instruction that fails spares what there was**, but for the receiver of a call whose place a class has
taken. -/
theorem execute_spared (hs : m.Sane) (hlost : ∀ x, m.Displaced [Opcode.invoke.toByte] x → lost x) :
    Spares lost m execute m fun _ _ => True := by
  unfold execute
  refine .get (.ite (fun _ => ?_) fun _ => fetch_spared hs hlost)
  have hreport : Spares lost m report m fun _ m' => ∃ texts text,
      m' = { m with heap := (m.heap.record (.operands texts)).record (.executes text) } :=
    report_ends hs fun _ r hr huser => by
      cases hr
      cases huser
  refine (hreport.both (report_tame hs)).bind fun _ m₁ h₁ => ?_
  obtain ⟨⟨texts, text, rfl⟩, hs₁⟩ := h₁
  have hcells : ∀ x, ((m.heap.record (.operands texts)).record (.executes text)).cell? x = m.heap.cell? x := by
    simp
  have hfetch := fetch_spared hs₁ fun x hx => hlost x (hx.congr hcells)
  exact hfetch.weaken fun e m' he r hr huser hout => (he r hr huser hout).congr rfl rfl hcells rfl

end Run

end LoxMachine
