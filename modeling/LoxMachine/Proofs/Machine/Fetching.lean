import LoxMachine.Proofs.Code.Reading
import LoxMachine.Proofs.Machine.Failures

/-!
# Fetching instructions

* `Run.fetch` reads an opcode and the operands that it has, and does nothing with them. What is read is the
  instruction at the offset: `fetch_ok_iff`.
* `Opcode.Transfers`: what an operation does to the calls once its operands have been read.
* `perform_decodes`: what an operation reads of the code is its operands, whatever it does and also if it fails.
-/

namespace LoxMachine

variable {m m' m'' : Machine} {op : Opcode} {bytes bs args : List UInt8}

namespace Machine

/-- The innermost call has gone on over the operands of the operation. -/
def Operands (op : Opcode) (m m' : Machine) : Prop :=
  ∃ f rest g args, m.frames = f :: rest ∧ m.heap.function f.function = .ok g ∧ Holds g.chunk.code f.ip args ∧
    g.Takes m.heap op args ∧ m' = { m with frames := { f with ip := f.ip + args.length } :: rest }

/-- The innermost call has gone on over an instruction. -/
def Fetches (i : Instruction) (m m' : Machine) : Prop :=
  ∃ f rest g, m.frames = f :: rest ∧ m.heap.function f.function = .ok g ∧
    g.instructionAt? m.heap f.ip = some i ∧ m' = { m with frames := { f with ip := f.ip + i.size } :: rest }

end Machine

namespace Run

open Machine

variable {α : Type}

/-- Read a number of bytes. -/
def readBytes : (count : Nat) → Run Unit
  | 0 => return
  | count + 1 => do
    let _ ← readByte
    readBytes count

/-- Read the operands of an operation. -/
def readOperands (op : Opcode) : Run Unit := do
  match op.operands with
  | .none => return
  | .byte | .constant => readBytes 1
  | .forward | .backward => let _ ← readDistance
  | .invocation => readBytes 2
  | .captures =>
    let function ← readObject .function
    readBytes (2 * (← look (·.function function)).upvalueCount)

/-- Read an instruction. -/
def fetch : Run Opcode := do
  let op ← readOpcode
  readOperands op
  return op

/-! ## What is fetched -/

theorem frame_of_frames {f : Frame} {rest : List Frame} (hf : m.frames = f :: rest) : frame m = .ok f m := by
  unfold frame
  rw [get_bind, hf]
  rfl

theorem runningChunk_of_function {f : Frame} {g : Function} (hg : m.heap.function f.function = .ok g) :
    runningChunk f m = .ok g.chunk m := by
  unfold runningChunk
  rw [look_bind_ok hg]
  rfl

theorem jumpTo_of_frames {f : Frame} {rest : List Frame} (hf : m.frames = f :: rest) (ip : Nat) :
    jumpTo ip m = .ok () { m with frames := { f with ip } :: rest } := by
  refine congrArg (EStateM.Result.ok ()) ?_
  simp only [hf]

/-- Reading a byte that is there. -/
theorem readByte_of_consumes {b : UInt8} (h : m.Consumes [b] m') : readByte m = .ok b m' := by
  obtain ⟨f, rest, hf, ⟨g, hg, hholds⟩, rfl⟩ := h
  unfold readByte
  rw [bind_of_ok (frame_of_frames hf), bind_of_ok (runningChunk_of_function hg), hholds.read8]
  exact bind_of_ok (jumpTo_of_frames hf _)

theorem readOpcode_of_consumes (h : m.Consumes [op.toByte] m') : readOpcode m = .ok op m' := by
  unfold readOpcode
  rw [bind_of_ok (readByte_of_consumes h), Opcode.ofByte?_toByte]
  rfl

theorem readDistance_of_consumes {high low : UInt8} (h : m.Consumes [high, low] m') :
    readDistance m = .ok (distance high low) m' := by
  obtain ⟨f, rest, hf, ⟨g, hg, hholds⟩, rfl⟩ := h
  unfold readDistance
  rw [bind_of_ok (frame_of_frames hf), bind_of_ok (runningChunk_of_function hg), hholds.read16]
  exact bind_of_ok (jumpTo_of_frames hf _)

theorem readBytes_of_consumes (h : m.Consumes bytes m') : readBytes bytes.length m = .ok () m' := by
  induction bytes generalizing m with
  | nil =>
    obtain ⟨f, rest, hf, -, rfl⟩ := h
    rw [List.length_nil, Nat.add_zero, ← hf]
    rfl
  | cons b bytes ih =>
    obtain ⟨m₁, hb, hbytes⟩ := h.uncons
    rw [List.length_cons, readBytes, bind_of_ok (readByte_of_consumes hb)]
    exact ih hbytes

theorem readConstant_of_consumes {c : UInt8} {v : Value} (h : m.Consumes [c] m') (hc : m.HasConstant c v) :
    readConstant m = .ok v m' := by
  obtain ⟨f, rest, k, hf, hk, hc⟩ := hc
  obtain ⟨f', rest', hf', -, rfl⟩ := id h
  cases hf.symm.trans hf'
  have hchunk := runningChunk_of_function (m := { m with frames := { f with ip := f.ip + 1 } :: rest })
    (f := { f with ip := f.ip + 1 }) hk
  unfold readConstant
  rw [bind_of_ok (readByte_of_consumes h), bind_of_ok (frame_of_frames rfl)]
  change (runningChunk { f with ip := f.ip + 1 } >>= _) { m with frames := { f with ip := f.ip + 1 } :: rest } = _
  rw [bind_of_ok hchunk, hc]
  rfl

/-- A constant object of the kind that is asked for. -/
theorem readObject_of_kind {kind : ObjectKind} {c : UInt8} {x : Handle} (h : m.Consumes [c] m')
    (hc : m.HasConstant c (.obj x)) (hkind : m.heap.asKind kind (.obj x) = .ok (some x)) :
    readObject kind m = .ok x m' := by
  obtain ⟨f, rest, k, hf, hk, hc⟩ := hc
  obtain ⟨f', rest', hf', -, rfl⟩ := id h
  cases hf.symm.trans hf'
  have hchunk := runningChunk_of_function (m := { m with frames := { f with ip := f.ip + 1 } :: rest })
    (f := { f with ip := f.ip + 1 }) hk
  unfold readObject
  rw [bind_of_ok (readByte_of_consumes h), bind_of_ok (frame_of_frames rfl)]
  change (runningChunk { f with ip := f.ip + 1 } >>= _) { m with frames := { f with ip := f.ip + 1 } :: rest } = _
  rw [bind_of_ok hchunk, hc]
  have hask : asKind kind (.obj x) { m with frames := { f with ip := f.ip + 1 } :: rest } =
    .ok (some x) { m with frames := { f with ip := f.ip + 1 } :: rest } := look_ok hkind
  exact bind_of_ok hask

theorem readObject_of_consumes {c : UInt8} {x : Handle} {g : Function} (h : m.Consumes [c] m')
    (hc : m.HasConstant c (.obj x)) (hg : m.heap.function x = .ok g) : readObject .function m = .ok x m' := by
  obtain ⟨bytes, hcell⟩ := Heap.function_eq_ok_iff.1 hg
  exact readObject_of_kind h hc (by rw [asKind_of_cell? hcell]; rfl)

theorem readName_of_consumes {c : UInt8} {x : Handle} {name : String} (h : m.Consumes [c] m')
    (hc : m.HasConstant c (.obj x)) (hname : m.heap.hasContents name x = true) : readName m = .ok x m' := by
  obtain ⟨text, bytes, hcell, -⟩ := (Heap.hasContents_iff m.heap _ _).1 hname
  exact readObject_of_kind h hc (by rw [asKind_of_cell? hcell]; rfl)

theorem readBytes_consumes {n : Nat} (hr : m.Runs) :
    Consuming (readBytes n) m fun _ m' => ∃ bytes, bytes.length = n ∧ m.Consumes bytes m' := by
  induction n generalizing m with
  | zero => exact .pure ⟨[], rfl, hr.consumes_nil⟩
  | succ n ih =>
    unfold readBytes
    refine readByte_consumes.bind fun b m₁ h => (ih h.runs).mono fun _ m₂ hbs => ?_
    obtain ⟨bytes, rfl, hbytes⟩ := hbs
    exact ⟨b :: bytes, rfl, h.append hbytes⟩

/-- Bytes that an operation takes are its operands. -/
theorem operands_of_consumes (h : m.Consumes args m')
    (htakes : ∀ f g, m.frames.head? = some f → m.heap.function f.function = .ok g → g.Takes m.heap op args) :
    m.Operands op m' := by
  obtain ⟨f, rest, hf, ⟨g, hg, hholds⟩, rfl⟩ := h
  exact ⟨f, rest, g, args, hf, hg, hholds, htakes f g (by rw [hf]; rfl) hg, rfl⟩

theorem operands_of_none (hop : op.operands = .none) (hr : m.Runs) : m.Operands op m :=
  operands_of_consumes hr.consumes_nil fun _ _ _ _ => .none hop

theorem operands_of_byte {b : UInt8} (hop : op.operands = .byte) (h : m.Consumes [b] m') : m.Operands op m' :=
  operands_of_consumes h fun _ _ _ _ => .byte hop b

theorem operands_of_constant {c : UInt8} (hop : op.operands = .constant) (h : m.Consumes [c] m') :
    m.Operands op m' :=
  operands_of_consumes h fun _ _ _ _ => .constant hop c

theorem operands_of_invocation {c count : UInt8} (hop : op.operands = .invocation) (h : m.Consumes [c, count] m') :
    m.Operands op m' :=
  operands_of_consumes h fun _ _ _ _ => .invocation hop c count

theorem operands_of_distance {high low : UInt8} (hop : op.operands = .forward ∨ op.operands = .backward)
    (h : m.Consumes [high, low] m') : m.Operands op m' :=
  operands_of_consumes h fun _ _ _ _ => hop.elim (.forward · high low) (.backward · high low)

theorem operands_of_captures {c : UInt8} {captures : List UInt8} {x : Handle} {g : Function}
    (hop : op.operands = .captures) (h : m.Consumes (c :: captures) m') (hc : m.HasConstant c (.obj x))
    (hg : m.heap.function x = .ok g) (hlength : captures.length = 2 * g.upvalueCount) : m.Operands op m' := by
  refine operands_of_consumes h fun f k hf hk => ?_
  obtain ⟨f', rest, k', hf', hk', hc⟩ := hc
  rw [hf'] at hf
  cases hf
  cases hk'.symm.trans hk
  exact .captures hop hc hg hlength

theorem readOperands_consumes (op : Opcode) (hr : m.Runs) :
    Consuming (readOperands op) m fun _ m' => m.Operands op m' := by
  unfold readOperands
  cases hop : op.operands with
  | none => exact .pure (operands_of_none hop hr)
  | byte =>
    refine (readBytes_consumes hr).mono fun _ m' h => ?_
    obtain ⟨bytes, hlength, h⟩ := h
    obtain ⟨b, rfl⟩ := List.length_eq_one_iff.1 hlength
    exact operands_of_byte hop h
  | constant =>
    refine (readBytes_consumes hr).mono fun _ m' h => ?_
    obtain ⟨bytes, hlength, h⟩ := h
    obtain ⟨b, rfl⟩ := List.length_eq_one_iff.1 hlength
    exact operands_of_constant hop h
  | forward =>
    refine readDistance_consumes.bind fun _ m' h => .pure ?_
    obtain ⟨high, low, h, -⟩ := h
    exact operands_of_distance (.inl hop) h
  | backward =>
    refine readDistance_consumes.bind fun _ m' h => .pure ?_
    obtain ⟨high, low, h, -⟩ := h
    exact operands_of_distance (.inr hop) h
  | invocation =>
    refine (readBytes_consumes hr).mono fun _ m' h => ?_
    obtain ⟨bytes, hlength, h⟩ := h
    obtain ⟨c, count, rfl⟩ := List.length_eq_two.1 hlength
    exact operands_of_invocation hop h
  | captures =>
    refine (readObject_consumes .function).bind fun x m₁ h => (look_consuming _).bind fun g m₂ hg => ?_
    obtain ⟨c, h, hc⟩ := h
    obtain ⟨rfl, hg⟩ := hg
    refine (readBytes_consumes h.runs).mono fun _ m' hbytes => ?_
    obtain ⟨bytes, hlength, hbytes⟩ := hbytes
    exact operands_of_captures hop (h.append hbytes) hc (h.heap_eq ▸ hg) hlength

theorem fetches_of_operands (h : m.Consumes [op.toByte] m') (ho : m'.Operands op m'') :
    ∃ i, i.op = op ∧ m.Fetches i m'' := by
  obtain ⟨f, rest, hf, ⟨g, hg, hop⟩, rfl⟩ := h
  obtain ⟨f', rest', g', args, hf', hg', hargs, htakes, rfl⟩ := ho
  cases hf'
  cases hg.symm.trans hg'
  refine ⟨⟨op, args⟩, rfl, f, rest, g, hf, hg, instructionAt?_eq_some_iff.2 ⟨hop.concat hargs, htakes⟩, ?_⟩
  rw [Instruction.size, Nat.add_assoc]
  rfl

theorem readOperands_of_operands (h : m.Operands op m') : readOperands op m = .ok () m' := by
  obtain ⟨f, rest, g, args, hf, hg, hholds, htakes, hm'⟩ := h
  have h : m.Consumes args m' := ⟨f, rest, hf, ⟨g, hg, hholds⟩, hm'⟩
  unfold readOperands
  cases htakes with
  | none hop =>
    rw [hop]
    exact readBytes_of_consumes h
  | byte hop b =>
    rw [hop]
    exact readBytes_of_consumes h
  | constant hop c =>
    rw [hop]
    exact readBytes_of_consumes h
  | forward hop high low =>
    rw [hop]
    exact bind_of_ok (readDistance_of_consumes h)
  | backward hop high low =>
    rw [hop]
    exact bind_of_ok (readDistance_of_consumes h)
  | invocation hop c count =>
    rw [hop]
    exact readBytes_of_consumes h
  | @captures c captures x k hop hx hk hlength =>
    obtain ⟨m₁, hc, hcaptures⟩ := h.uncons
    have hread := readObject_of_consumes hc ⟨f, rest, g, hf, hg, hx⟩ hk
    rw [hop]
    change (readObject .function >>= _) m = _
    rw [bind_of_ok hread, look_bind_ok (hc.heap_eq.symm ▸ hk), ← hlength]
    exact readBytes_of_consumes hcaptures

/-- **What is fetched is the instruction at the offset**, and the innermost call goes on right after it. -/
theorem fetch_fetches : Consuming fetch m fun op m' => ∃ i, i.op = op ∧ m.Fetches i m' := by
  unfold fetch
  refine readOpcode_consumes.bind fun op m₁ h => (readOperands_consumes op h.runs).bind fun _ m₂ ho => .pure ?_
  exact fetches_of_operands h ho

theorem operands_of_fetches {i : Instruction} (h : m.Fetches i m') :
    ∃ m₁, m.Consumes [i.op.toByte] m₁ ∧ m₁.Operands i.op m' := by
  obtain ⟨f, rest, g, hf, hg, hi, rfl⟩ := h
  obtain ⟨hholds, htakes⟩ := instructionAt?_eq_some_iff.1 hi
  refine ⟨_, ⟨f, rest, hf, ⟨g, hg, hholds.first⟩, rfl⟩, _, rest, g, i.args, rfl, hg,
    hholds.tail, htakes, ?_⟩
  rw [Instruction.size, Nat.add_assoc]
  rfl

/-- **Fetching** succeeds where the code holds an instruction. -/
theorem fetch_eq_ok_iff : fetch m = .ok op m' ↔ ∃ i, i.op = op ∧ m.Fetches i m' := by
  constructor
  · exact fetch_fetches.of_ok
  · rintro ⟨i, rfl, h⟩
    obtain ⟨m₁, hop, ho⟩ := operands_of_fetches h
    unfold fetch
    rw [bind_of_ok (readOpcode_of_consumes hop), bind_of_ok (readOperands_of_operands ho)]
    rfl

/-! ## What is read by instructions -/

end Run

namespace Machine

/-- The calls are the same. -/
def SameFrames (m m' : Machine) : Prop := m'.frames = m.frames

instance : Chains SameFrames := ⟨fun _ => rfl, fun h h' => h'.trans h⟩
instance : Stacks SameFrames := ⟨fun _ _ => rfl⟩
instance : Counts SameFrames := ⟨fun _ _ => rfl⟩
instance (kind : ObjectKind) : Makes SameFrames kind := ⟨fun _ _ _ _ => rfl⟩
instance : Interns SameFrames := ⟨fun _ _ => rfl⟩
instance (kind : ObjectKind) : Alters SameFrames kind := ⟨fun _ _ _ _ _ => rfl⟩
instance : Opens SameFrames := ⟨fun _ _ => rfl⟩
instance : Defines SameFrames := ⟨fun _ _ => rfl⟩
instance : Prints SameFrames := ⟨fun _ _ => rfl⟩
/-- A call has begun, at most. -/
def Deepens (m m' : Machine) : Prop := m.SameFrames m' ∨ ∃ f, m'.frames = f :: m.frames

/-- The innermost call has ended. -/
def Drops (m m' : Machine) : Prop := m'.frames = m.frames.tail

/-- The innermost call goes on at some offset. -/
def Leaps (m m' : Machine) : Prop := ∃ f rest ip, m.frames = f :: rest ∧ m'.frames = { f with ip } :: rest

end Machine

/-- What an operation does to the calls when its operands have been read. -/
def Opcode.Transfers : Opcode → Machine → Machine → Prop
  | .jump | .jumpIfFalse | .loop => Machine.Leaps
  | .call | .invoke | .superInvoke => Machine.Deepens
  | .ret => Machine.Drops
  | _ => Machine.SameFrames

namespace Run

open Machine

variable {α β : Type}

/-- The action reads the operands of the operation, and no more of the code, and has then the effect `T`. If it
fails by an error of the user, it has read them, and the calls are the same. -/
def Decodes (op : Opcode) (T : Machine → Machine → Prop) (x : Run α) (m : Machine) : Prop :=
  Ends (fun e m' => Blames e ∨ ∃ m₁, m.Operands op m₁ ∧ m₁.SameFrames m') x m
    fun _ m' => ∃ m₁, m.Operands op m₁ ∧ T m₁ m'

/-- After the operands have been read. -/
theorem after_operands {x : Run α} {T : Machine → Machine → Prop} (ho : m.Operands op m')
    (hx : Ends (fun e m₂ => Blames e ∨ m'.SameFrames m₂) x m'' fun _ m₂ => T m' m₂) :
    Ends (fun e m₂ => Blames e ∨ ∃ m₁, m.Operands op m₁ ∧ m₁.SameFrames m₂) x m''
      fun _ m₂ => ∃ m₁, m.Operands op m₁ ∧ T m₁ m₂ :=
  (hx.weaken fun _ _ he => he.imp_right fun hf => ⟨m', ho, hf⟩).mono fun _ _ ht => ⟨m', ho, ht⟩

/-- Reading is not blamed on the user. -/
theorem Consuming.reads {r : Run α} {Q : α → Machine → Prop} (hr : Consuming r m Q)
    (E : Failure → Machine → Prop) : Ends (fun e m' => Blames e ∨ E e m') r m Q :=
  hr.weaken fun _ _ he => .inl he

theorem decodes_of_begins {r : Run α} {x : Run β} [h : Begins r SameFrames x] {Q : α → Machine → Prop}
    (hr : Consuming r m Q) (ho : ∀ a m₁, Q a m₁ → m.Operands op m₁) : Decodes op SameFrames x m := by
  obtain ⟨g, rfl, hg⟩ := h.rest
  refine (Consuming.reads hr _).bind fun a m₁ h => after_operands (ho a m₁ h) ?_
  exact (hg a).ends.weaken fun _ _ he => .inr he

theorem decodes_none {x : Run α} [h : Along SameFrames x] (hop : op.operands = .none) (hr : m.Runs) :
    Decodes op SameFrames x m :=
  (h.ends.weaken fun _ _ he => .inr ⟨m, operands_of_none hop hr, he⟩).mono
    fun _ _ ht => ⟨m, operands_of_none hop hr, ht⟩

theorem decodes_byte {x : Run α} [Begins readByte SameFrames x] (hop : op.operands = .byte) :
    Decodes op SameFrames x m :=
  decodes_of_begins readByte_consumes fun _ _ h => operands_of_byte hop h

theorem decodes_name {x : Run α} [Begins readName SameFrames x] (hop : op.operands = .constant) :
    Decodes op SameFrames x m :=
  decodes_of_begins readName_consumes fun _ _ h => operands_of_constant hop h.choose_spec.1

/-! ### Calls -/

/-- The action begins a call at most, and none if it fails. -/
class Calling (x : Run α) : Prop where
  ends : ∀ m, Ends (fun _ m' => m.SameFrames m') x m fun _ m' => m.Deepens m'

instance (priority := low) {x : Run α} [h : Along SameFrames x] : Calling x :=
  ⟨fun _ => h.ends.mono fun _ _ hf => .inl hf⟩

theorem Calling.after {x : Run α} {g : α → Run β} [h : Along SameFrames x] (hg : ∀ a, Calling (g a)) :
    Calling (x >>= g) where
  ends m := by
    refine h.ends.bind fun a m₁ hf =>
      (((hg a).ends m₁).weaken fun _ _ he => Chains.trans hf he).mono fun _ m' hend => ?_
    rcases hend with hend | ⟨f, hend⟩
    · exact .inl (Chains.trans hf hend)
    · exact .inr ⟨f, hend.trans (congrArg (f :: ·) hf)⟩

instance {x : Run α} {g : α → Run β} [Along SameFrames x] [hg : ∀ a, Calling (g a)] : Calling (x >>= g) := .after hg

instance (e : RuntimeError) {g : α → Run β} : Calling (fail e >>= g) := ⟨fun _ => .fail_bind rfl⟩

instance {p : Prop} [Decidable p] {x y : Run α} [hx : Calling x] [hy : Calling y] : Calling (if p then x else y) := by
  split
  · exact hx
  · exact hy

instance (closure : Handle) (count : Nat) : Calling (call closure count) := by
  have henter (f : Frame) : Calling (modify fun m => { m with frames := f :: m.frames }) :=
    ⟨fun m => .modify (.inr ⟨f, rfl⟩)⟩
  unfold call
  dsimp only
  infer_instance

instance (cls : Handle) (count : Nat) : Calling (instantiate cls count) := by
  unfold instantiate
  refine .after fun target => .after fun _ => .after fun c => .after fun m => .after fun key => ?_
  dsimp only
  split
  · refine .after fun init => ?_
    split <;> infer_instance
  · refine .after fun init => ?_
    split <;> infer_instance

instance (callee : Value) (count : Nat) : Calling (callValue callee count) := by
  unfold callValue
  split
  · refine .after fun o => ?_
    split <;> infer_instance
  · infer_instance

instance (cls name : Handle) (count : Nat) : Calling (invokeFromClass cls name count) := by
  unfold invokeFromClass
  infer_instance

theorem Calling.deepens {x : Run α} [h : Calling x] :
    Ends (fun e m' => Blames e ∨ m.SameFrames m') x m fun _ m' => m.Deepens m' :=
  (h.ends m).weaken fun _ _ he => .inr he

theorem callInstruction_decodes (hop : op.operands = .byte) : Decodes op Machine.Deepens callInstruction m := by
  unfold callInstruction
  exact (Consuming.reads readByte_consumes _).bind fun count m₁ h => after_operands (operands_of_byte hop h) Calling.deepens

theorem invoke_decodes (hop : op.operands = .invocation) : Decodes op Machine.Deepens invoke m := by
  unfold invoke
  refine (Consuming.reads readName_consumes _).bind fun name m₁ h₁ =>
    (Consuming.reads readByte_consumes _).bind fun count m₂ h₂ => ?_
  obtain ⟨c, h₁, -⟩ := h₁
  refine after_operands (operands_of_invocation hop (h₁.append h₂)) (Calling.deepens (h := ?_))
  refine .after fun receiver => .after fun target => .after fun found => ?_
  split <;> infer_instance

theorem superInvoke_decodes (hop : op.operands = .invocation) : Decodes op Machine.Deepens superInvoke m := by
  unfold superInvoke
  refine (Consuming.reads readName_consumes _).bind fun name m₁ h₁ =>
    (Consuming.reads readByte_consumes _).bind fun count m₂ h₂ => ?_
  obtain ⟨c, h₁, -⟩ := h₁
  exact after_operands (operands_of_invocation hop (h₁.append h₂)) Calling.deepens

/-! ### Jumps -/

theorem frame_runs (hr : m.Runs) (E : Failure → Machine → Prop) :
    Ends E frame m fun f m' => m' = m ∧ ∃ rest, m.frames = f :: rest := by
  obtain ⟨f, rest, g, hf, hg⟩ := hr
  unfold frame
  refine .get ?_
  rw [hf]
  exact .pure ⟨rfl, rest, rfl⟩

theorem jumpTo_leaps {f : Frame} {rest : List Frame} (hf : m.frames = f :: rest) (ip : Nat)
    (E : Failure → Machine → Prop) : Ends E (jumpTo ip) m fun _ m' => m.Leaps m' := by
  refine .modify ?_
  rw [hf]
  exact ⟨f, rest, ip, hf, rfl⟩

theorem jump_decodes (hop : op.operands = .forward) : Decodes op Leaps jump m := by
  unfold jump
  refine (Consuming.reads readDistance_consumes _).bind fun d m₁ h => ?_
  obtain ⟨high, low, h, -⟩ := h
  refine after_operands (operands_of_distance (.inl hop) h) ?_
  refine (frame_runs h.runs _).bind fun f m₂ hf => ?_
  obtain ⟨rfl, rest, hf⟩ := hf
  exact jumpTo_leaps hf _ _

theorem jumpBack_decodes (hop : op.operands = .backward) : Decodes op Leaps jumpBack m := by
  unfold jumpBack
  refine (Consuming.reads readDistance_consumes _).bind fun d m₁ h => ?_
  obtain ⟨high, low, h, -⟩ := h
  refine after_operands (operands_of_distance (.inr hop) h) ?_
  refine (frame_runs h.runs _).bind fun f m₂ hf => ?_
  obtain ⟨rfl, rest, hf⟩ := hf
  exact .ite (fun _ => jumpTo_leaps hf _ _) fun _ => .fail (.inr rfl)

theorem jumpIfFalse_decodes (hop : op.operands = .forward) : Decodes op Leaps jumpIfFalse m := by
  unfold jumpIfFalse
  refine (Consuming.reads readDistance_consumes _).bind fun d m₁ h => ?_
  obtain ⟨high, low, h, -⟩ := h
  refine after_operands (operands_of_distance (.inl hop) h) ?_
  refine (Consuming.reads peek_consuming _).bind fun v m₂ hv => ?_
  obtain ⟨rfl, -⟩ := hv
  obtain ⟨f, rest, g, hf, hg⟩ := h.runs
  refine .ite (fun _ => ?_) fun _ => .pure ⟨f, rest, f.ip, hf, hf⟩
  refine (frame_runs h.runs _).bind fun f' m₃ hf' => ?_
  obtain ⟨rfl, rest', hf'⟩ := hf'
  exact jumpTo_leaps hf' _ _

/-! ### Closures -/

end Run

namespace Machine

/-- The innermost call has gone on over the bytes, and its function is still there. -/
def Passes (m : Machine) (bytes : List UInt8) (m' : Machine) : Prop :=
  ∃ f rest g, m.frames = f :: rest ∧ m.heap.function f.function = .ok g ∧ Holds g.chunk.code f.ip bytes ∧
    m'.frames = { f with ip := f.ip + bytes.length } :: rest ∧ m'.heap.function f.function = .ok g

theorem Consumes.passes (h : m.Consumes bs m') : m.Passes bs m' := by
  obtain ⟨f, rest, hf, ⟨g, hg, hholds⟩, rfl⟩ := h
  exact ⟨f, rest, g, hf, hg, hholds, rfl, hg⟩

theorem Passes.append (h : m.Passes bs m') (h' : m'.Passes bytes m'') : m.Passes (bs ++ bytes) m'' := by
  obtain ⟨f, rest, g, hf, hg, hholds, hf₁, hg₁⟩ := h
  obtain ⟨f', rest', g', hf', hg', hholds', hf₂, hg₂⟩ := h'
  cases hf₁.symm.trans hf'
  cases hg₁.symm.trans hg'
  refine ⟨f, rest, g, hf, hg, hholds.concat hholds', ?_, hg₂⟩
  rw [hf₂, List.length_append, Nat.add_assoc]

theorem Passes.runs (h : m.Passes bs m') : m'.Runs := by
  obtain ⟨f, rest, g, -, -, -, hf, hg⟩ := h
  exact ⟨_, rest, g, hf, hg⟩

theorem Passes.consumes (h : m.Passes bs m') : ∃ m₁, m.Consumes bs m₁ ∧ m₁.SameFrames m' := by
  obtain ⟨f, rest, g, hf, hg, hholds, hf', -⟩ := h
  exact ⟨_, ⟨f, rest, hf, ⟨g, hg, hholds⟩, rfl⟩, hf'⟩

/-- Nothing has been read, and the running function has been kept. -/
theorem passes_of_carries (hs : m.Sane) (hr : m.Runs) (hf : m.SameFrames m') (hc : Run.Carries m m') :
    m.Passes [] m' := by
  obtain ⟨f, rest, g, hframes, hg⟩ := hr
  obtain ⟨bytes, hcell⟩ := Heap.function_eq_ok_iff.1 hg
  obtain ⟨-, -, -, hreach⟩ := hs.function (f := f) (by rw [hframes]; exact List.mem_cons_self)
  refine ⟨f, rest, g, hframes, hg, fun i hi => absurd hi (Nat.not_lt_zero i), ?_, ?_⟩
  · rw [hf, hframes, List.length_nil, Nat.add_zero]
  · exact Heap.function_eq_ok_iff.2 ⟨bytes, ((hc.kept _ hreach).2).trans hcell⟩

end Machine

namespace Run

open Machine

variable {α : Type}

theorem Blameless.consuming {x : Run α} [h : Blameless x] : Consuming x m fun _ _ => True := by
  unfold Consuming Ends
  cases hx : x m with
  | ok a m' => trivial
  | error e m' =>
    rintro r rfl
    exact h.never hx

/-- **Capturing reads two bytes for each variable.** -/
theorem captures_passes (base count : Nat) (upvalues : Array Handle) (hs : m.Sane) (hr : m.Runs) :
    Consuming (captures base count upvalues) m
      fun _ m' => ∃ bytes, bytes.length = 2 * count ∧ m.Passes bytes m' := by
  induction count generalizing m upvalues with
  | zero => exact .pure ⟨[], rfl, hr.consumes_nil.passes⟩
  | succ count ih =>
    unfold captures
    refine (readByte_consumes.both (readByte_tame hs)).bind fun origin m₁ h₁ => ?_
    obtain ⟨h₁, hs₁⟩ := h₁
    refine (readByte_consumes.both (readByte_tame hs₁.sane)).bind fun index m₂ h₂ => ?_
    obtain ⟨h₂, hs₂⟩ := h₂
    have hfound : Consuming (if origin ≠ 0 then captureUpvalue (base + index.toNat) else frameUpvalue index) m₂
        fun _ m' => m₂.SameFrames m' ∧ Carries m₂ m' := by
      refine .ite (fun _ => ?_) fun _ => ?_
      · exact ((Blameless.consuming.both Along.ends).both (captureUpvalue_tame hs₂.sane _)).mono
          fun _ _ h => ⟨h.1.2, h.2.1⟩
      · refine (Blameless.consuming.both (frameUpvalue_tame hs₂.sane index)).mono fun _ m' h => ?_
        obtain ⟨-, rfl, -⟩ := h
        exact ⟨rfl, .refl hs₂.sane⟩
    refine hfound.ite_bind fun u m₃ h₃ => ?_
    obtain ⟨hframes, hcarries⟩ := h₃
    have hpass := (h₁.append h₂).passes.append (passes_of_carries hs₂.sane h₂.runs hframes hcarries)
    refine (ih (upvalues.push u) hcarries.sane hpass.runs).mono fun _ m' h => ?_
    obtain ⟨bytes, hlength, h⟩ := h
    exact ⟨_, by simp only [List.length_append, List.length_cons, List.length_nil, hlength]; omega, hpass.append h⟩

theorem makeClosure_decodes (hop : op.operands = .captures) (hs : m.Sane) :
    Decodes op SameFrames makeClosure m := by
  unfold makeClosure
  refine (Consuming.reads ((readObject_consumes .function).both (readObject_tame hs .function)) _).bind
    fun x m₁ h => ?_
  obtain ⟨⟨c, h, hc⟩, hs₁, -⟩ := h
  refine (Consuming.reads (look_consuming _) _).bind fun g m₂ hg => ?_
  obtain ⟨rfl, hg⟩ := hg
  refine (frame_runs h.runs _).bind fun f m₃ hf => ?_
  obtain ⟨rfl, -⟩ := hf
  refine (Consuming.reads (captures_passes f.base g.upvalueCount #[] hs₁.sane h.runs) _).bind fun upvalues m₃ h₃ => ?_
  obtain ⟨bytes, hlength, h₃⟩ := h₃
  obtain ⟨m₁, hbytes, hframes⟩ := h₃.consumes
  have ho := operands_of_captures hop (h.append hbytes) hc (h.heap_eq ▸ hg) hlength
  have hrest : Along SameFrames (do push (.obj (← alloc (.closure { function := x, upvalues })))) := inferInstance
  exact after_operands ho ((hrest.ends.weaken fun _ _ he => .inr (Chains.trans hframes he)).mono
    fun _ _ ht => Chains.trans hframes ht)

/-! ### Returns -/

theorem pop_consuming : Consuming pop m fun _ m' => 0 < m.stack.size ∧ m' = { m with stack := m.stack.pop } := by
  unfold pop
  refine .get ?_
  cases hv : m.stack.back? with
  | none => exact .fail fun r hr => by cases hr; rfl
  | some v =>
    have hpos : 0 < m.stack.size := by
      by_contra hzero
      rw [Array.back?, Array.getElem?_eq_none (by omega)] at hv
      cases hv
    exact .bind (.modify (Q := fun _ m' => 0 < m.stack.size ∧ m' = { m with stack := m.stack.pop }) ⟨hpos, rfl⟩)
      fun _ _ h => .pure h

theorem push_consuming (v : Value) (h : m.stack.size < maxStack) : Consuming (push v) m fun _ m' => m.SameFrames m' := by
  unfold push
  refine .get ?_
  dsimp only
  rw [if_neg (by omega)]
  exact .modify rfl

theorem closeUpvalues_consuming (last : Nat) :
    Consuming (closeUpvalues last) m fun _ m' => m.SameFrames m' ∧ m.SameStack m' :=
  (Blameless.consuming.both ((Along.ends (R := SameFrames)).both (Along.ends (R := SameStack)))).mono
    fun _ _ h => h.2

/-- A call that ends is left. There is room for its result, as it has been popped before. -/
theorem ret_drops (hs : m.Sane) (hr : m.Runs) : Consuming ret m fun _ m' => m.Drops m' := by
  unfold ret
  refine pop_consuming.bind fun v m₁ h₁ => ?_
  obtain ⟨hpos, rfl⟩ := h₁
  have hroom : m.stack.pop.size < maxStack := by
    have hle := hs.size_le
    rw [Array.size_pop]
    omega
  have hframe := frame_runs (m := { m with stack := m.stack.pop }) hr (fun e _ => Blames e)
  refine hframe.bind fun f m₁ hf => ?_
  obtain ⟨rfl, -⟩ := hf
  refine .bind (.modify (Q := fun _ m' => m' = { m with stack := m.stack.pop, frames := m.frames.tail }) rfl)
    fun _ m₂ h₂ => ?_
  subst h₂
  refine (closeUpvalues_consuming f.base).bind fun _ m₃ h₃ => .get ?_
  obtain ⟨hframes, hstack⟩ := h₃
  refine .ite (fun _ => .bind (.modify (Q := fun _ m' => m₃.SameFrames m') rfl) fun _ m₄ h₄ => .pure ?_) fun _ =>
    .bind (.modify (Q := fun _ m' => m' = { m₃ with stack := m₃.stack.shrink f.base }) rfl) fun _ m₄ h₄ => ?_
  · exact h₄.trans hframes
  · subst h₄
    refine (push_consuming v ?_).bind fun _ m₅ h₅ => .pure (h₅.trans hframes)
    rw [Array.size_shrink, hstack]
    exact (Nat.min_le_right _ _).trans_lt hroom

theorem ret_decodes (hop : op.operands = .none) (hs : m.Sane) (hr : m.Runs) : Decodes op Drops ret m :=
  after_operands (operands_of_none hop hr) ((ret_drops hs hr).weaken fun _ _ he => .inl he)

/-! ### All operations -/

theorem Decodes.goOn {x : Run Unit} {T : Machine → Machine → Prop} (h : Decodes op T x m) :
    Decodes op T (do x; return false) m := Ends.bind h fun _ _ ht => .pure ht

/-- **An operation reads its operands, and no more of the code**, whether it is done or fails by an error of the
user. -/
theorem perform_decodes (op : Opcode) (hs : m.Sane) (hr : m.Runs) : Decodes op op.Transfers (perform op) m := by
  cases op with
  | constant =>
    refine (Consuming.reads readConstant_consumes _).bind fun v m₁ h => ?_
    obtain ⟨c, h, -⟩ := h
    have hrest : Along SameFrames (do push v; return false) := inferInstance
    exact after_operands (operands_of_constant rfl h) (hrest.ends.weaken fun _ _ he => .inr he)
  | getLocal | setLocal | getUpvalue | setUpvalue => exact (decodes_byte rfl).goOn
  | getGlobal | defineGlobal | setGlobal | getProperty | setProperty | getSuper | cls | method =>
    exact (decodes_name rfl).goOn
  | jump => exact (jump_decodes rfl).goOn
  | jumpIfFalse => exact (jumpIfFalse_decodes rfl).goOn
  | loop => exact (jumpBack_decodes rfl).goOn
  | call => exact (callInstruction_decodes rfl).goOn
  | invoke => exact (invoke_decodes rfl).goOn
  | superInvoke => exact (superInvoke_decodes rfl).goOn
  | closure => exact (makeClosure_decodes rfl hs).goOn
  | ret => exact ret_decodes rfl hs hr
  | _ =>
    unfold perform
    exact decodes_none rfl hr

/-- **What an instruction reads of the code is what is fetched.** -/
theorem perform_fetches (hs : m.Sane) :
    Ends (fun e m₂ => Blames e ∨ ∃ op m₁, fetch m = .ok op m₁ ∧ m₁.SameFrames m₂) (readOpcode >>= perform) m
      fun _ m₂ => ∃ op m₁, fetch m = .ok op m₁ ∧ op.Transfers m₁ m₂ := by
  refine (Consuming.reads (readOpcode_consumes.both (readOpcode_tame hs)) _).bind fun op m₀ h => ?_
  obtain ⟨h, hs₀⟩ := h
  have hfetch : ∀ {m₁}, m₀.Operands op m₁ → fetch m = .ok op m₁ := fun ho =>
    fetch_eq_ok_iff.2 (fetches_of_operands h ho)
  refine ((perform_decodes op hs₀ h.runs).weaken fun e m₂ he => he.imp_right ?_).mono fun _ m₂ ht => ?_
  · rintro ⟨m₁, ho, hf⟩
    exact ⟨op, m₁, hfetch ho, hf⟩
  · obtain ⟨m₁, ho, ht⟩ := ht
    exact ⟨op, m₁, hfetch ho, ht⟩

/-! ## Jumps that are taken -/

section Jumps

variable {f : Frame} {rest : List Frame} {d t : Nat}

theorem jump_eq (hd : readDistance m = .ok d m') (hf : m'.frames = f :: rest) :
    jump m = .ok () { m' with frames := { f with ip := f.ip + d } :: rest } := by
  unfold jump
  rw [bind_of_ok hd, bind_of_ok (frame_of_frames hf)]
  exact jumpTo_of_frames hf _

theorem jumpBack_eq (hd : readDistance m = .ok d m') (hf : m'.frames = f :: rest) (hle : d ≤ f.ip) :
    jumpBack m = .ok () { m' with frames := { f with ip := f.ip - d } :: rest } := by
  unfold jumpBack
  rw [bind_of_ok hd, bind_of_ok (frame_of_frames hf)]
  exact (congrFun (if_pos hle) m').trans (jumpTo_of_frames hf _)

theorem peek_zero_of_back {v : Value} (hv : m.stack.back? = some v) : peek 0 m = .ok v m := by
  have hpos : 0 < m.stack.size := by
    by_contra hzero
    rw [Array.back?, Array.getElem?_eq_none (by omega)] at hv
    cases hv
  have hbelow : below 0 m = .ok (m.stack.size - 1) m := by
    unfold below
    rw [get_bind]
    exact congrFun (if_pos hpos) m
  have hslot : slot (m.stack.size - 1) m = .ok v m := by
    unfold slot
    rw [get_bind, show m.stack[m.stack.size - 1]? = some v from hv]
    rfl
  exact (bind_of_ok hbelow).trans hslot

theorem jumpIfFalse_eq {v : Value} (hd : readDistance m = .ok d m') (hf : m'.frames = f :: rest)
    (hv : m'.stack.back? = some v) (hfalse : v.isFalsey = true) :
    jumpIfFalse m = .ok () { m' with frames := { f with ip := f.ip + d } :: rest } := by
  unfold jumpIfFalse
  rw [bind_of_ok hd, bind_of_ok (peek_zero_of_back hv), if_pos hfalse, bind_of_ok (frame_of_frames hf)]
  exact jumpTo_of_frames hf _

/-- **A jump that is taken goes to its target.** -/
theorem jump_taken {i : Instruction} (h : m.Fetches i m') (hf : m.frames = f :: rest)
    (ht : (t : Int) ∈ i.targets f.ip)
    (htop : i.op = .jumpIfFalse → ∃ v, m.stack.back? = some v ∧ v.isFalsey = true) :
    (readOpcode >>= perform) m = .ok false { m with frames := { f with ip := t } :: rest } := by
  obtain ⟨f', rest', g, hf', hg, hi, rfl⟩ := h
  cases hf'.symm.trans hf
  obtain ⟨hholds, -⟩ := instructionAt?_eq_some_iff.1 hi
  obtain ⟨op, args⟩ := i
  have hop : readOpcode m = .ok op { m with frames := { f with ip := f.ip + 1 } :: rest } :=
    readOpcode_of_consumes ⟨f, rest, hf, ⟨g, hg, hholds.first⟩, rfl⟩
  have hread : ∀ {high low}, args = [high, low] → readDistance { m with frames := { f with ip := f.ip + 1 } :: rest } =
      .ok (distance high low) { m with frames := { f with ip := f.ip + 1 + 2 } :: rest } := by
    rintro high low rfl
    exact readDistance_of_consumes ⟨_, rest, rfl, ⟨g, hg, hholds.tail⟩, rfl⟩
  rw [bind_of_ok hop]
  unfold Instruction.targets at ht
  split at ht
  · rename_i high low hjump hargs
    obtain rfl : op = .jump := hjump
    have ht := List.mem_singleton.1 ht
    obtain rfl : f.ip + 1 + 2 + distance high low = t := by omega
    exact bind_of_ok (jump_eq (hread hargs) rfl)
  · rename_i high low hjump hargs
    obtain rfl : op = .jumpIfFalse := hjump
    have ht := List.mem_singleton.1 ht
    obtain rfl : f.ip + 1 + 2 + distance high low = t := by omega
    obtain ⟨v, hv, hfalse⟩ := htop rfl
    exact bind_of_ok (jumpIfFalse_eq (hread hargs) rfl hv hfalse)
  · rename_i high low hloop hargs
    obtain rfl : op = .loop := hloop
    have ht := List.mem_singleton.1 ht
    have hle : distance high low ≤ f.ip + 1 + 2 := by omega
    obtain rfl : f.ip + 1 + 2 - distance high low = t := by omega
    exact bind_of_ok (jumpBack_eq (hread hargs) rfl hle)
  · exact absurd ht List.not_mem_nil

end Jumps

end Run

end LoxMachine
