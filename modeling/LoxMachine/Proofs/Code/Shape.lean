import LoxMachine.Draft
import LoxMachine.Heap
import Mathlib.Data.List.Forall2
import Mathlib.Order.Nat

/-!
# What an instruction does to the stack

The stack of a running function is described by its shape: one entry for each slot of the call, the
top first. The entry says whether a captured variable may still live in the slot. Values that are
popped must not be in such a slot, unless the instruction moves the variable off the stack.

* `Shape` is the shape of a stack, ordered by what it allows.
* `Opcode.needs`, `pops` and `pushes` are how an operation uses the stack.
* `Pool` is what an instruction can refer to: the kinds of the constants, and how many variables
  the function captures. `Pool.Operand` says which operand bytes an operation may have.
* `Layout` gives the offsets where instructions start their shapes. `Goes` says that the bytes of
  one instruction are right for a shape and go on only to offsets that expect what they leave, and
  `Fits` that such bytes stand in the code.
-/

namespace LoxMachine

/-! ## Shapes -/

/-- The slots of a call, the top first, each with whether a captured variable may live in it. -/
abbrev Shape := List Bool

namespace Shape

/-- A stack of the first shape can be used as one of the second. -/
def Le (s s' : Shape) : Prop := List.Forall₂ (fun a b => a = true → b = true) s s'

theorem Le.refl (s : Shape) : s.Le s := List.forall₂_same.2 fun _ _ h => h

theorem Le.trans {s₁ s₂ s₃ : Shape} (h₁ : s₁.Le s₂) (h₂ : s₂.Le s₃) : s₁.Le s₃ := by
  induction h₁ generalizing s₃ with
  | nil => exact h₂
  | cons hab _ ih =>
    cases h₂ with
    | cons hbc h₂ => exact .cons (hbc ∘ hab) (ih h₂)

theorem Le.length_eq {s s' : Shape} (h : s.Le s') : s.length = s'.length := List.Forall₂.length_eq h

theorem Le.cons_false (b : Bool) {s s' : Shape} (h : s.Le s') : Le (false :: s) (b :: s') :=
  .cons (fun hf => by cases hf) h

/-- The entry of a slot, counted from the bottom. -/
def slot? (s : Shape) (i : Nat) : Option Bool := s.reverse[i]?

theorem Le.slot? {s s' : Shape} (h : s.Le s') {i : Nat} (hi : s.slot? i = some true) :
    s'.slot? i = some true := by
  have hr : List.Forall₂ (fun a b => a = true → b = true) s.reverse s'.reverse :=
    List.forall₂_reverse_iff.2 h
  obtain ⟨hlt, hget⟩ := List.getElem?_eq_some_iff.1 hi
  have hlt' : i < s'.reverse.length := by rw [← List.Forall₂.length_eq hr]; exact hlt
  exact List.getElem?_eq_some_iff.2 ⟨hlt', (List.forall₂_iff_get.1 hr).2 i hlt hlt' hget⟩

theorem slot?_append (s t : Shape) (i : Nat) (h : i < t.length) :
    Shape.slot? (s ++ t) i = t.slot? i := by
  rw [Shape.slot?, Shape.slot?, List.reverse_append, List.getElem?_append_left (by simpa using h)]

end Shape

/-! ## Operations -/

namespace Opcode

/-- How many values an operation takes off the stack, if it is called with `n` arguments. -/
def pops (n : Nat) : Opcode → Nat
  | pop | defineGlobal | print | closeUpvalue | ret | inherit | method
  | getProperty | not | negate => 1
  | setProperty | getSuper | equal | greater | less | add | subtract | multiply | divide => 2
  | call | invoke => n + 1
  | superInvoke => n + 2
  | _ => 0

/-- How many values an operation puts on the stack. -/
def pushes : Opcode → Nat
  | constant | pushNil | pushTrue | pushFalse | getLocal | getGlobal | getUpvalue
  | getProperty | setProperty | getSuper | equal | greater | less
  | add | subtract | multiply | divide | not | negate
  | call | invoke | superInvoke | closure | cls => 1
  | _ => 0

/-- How many values an operation looks at, those it takes off included. -/
def needs (n : Nat) : Opcode → Nat
  | setLocal | setGlobal | setUpvalue | jumpIfFalse => 1
  | inherit | method => 2
  | op => op.pops n

/-- What an operation makes of a shape. -/
def effect (op : Opcode) (n : Nat) (s : Shape) : Shape :=
  List.replicate op.pushes false ++ s.drop (op.pops n)

theorem pops_le_needs (n : Nat) (op : Opcode) : op.pops n ≤ op.needs n := by
  cases op <;> simp [pops, needs]

theorem length_effect (op : Opcode) (n : Nat) (s : Shape) :
    (op.effect n s).length = s.length - op.pops n + op.pushes := by
  simp [effect, Nat.add_comm]

end Opcode

/-! ## Constants and captured variables -/

/-- What matters of a constant. -/
inductive ConstantKind where
  | value
  | string
  | function (upvalues : Nat)
  deriving DecidableEq

/-- The kind of a constant. -/
def Heap.constantKind (heap : Heap) : Value → ConstantKind
  | .obj h =>
    match heap.cell? h with
    | some { object := .string _, .. } => .string
    | some { object := .function f, .. } => .function f.upvalueCount
    | _ => .value
  | _ => .value

/-- What the instructions of a function can refer to. -/
structure Pool where
  constants : List ConstantKind
  /-- How many variables of enclosing functions are captured. -/
  upvalues : Nat

namespace Pool

/-- What can be referred to in the first pool can be referred to in the second. -/
structure Le (p q : Pool) : Prop where
  constants : p.constants <+: q.constants
  upvalues : p.upvalues ≤ q.upvalues

theorem Le.refl (p : Pool) : p.Le p := ⟨List.prefix_rfl, le_rfl⟩

theorem Le.trans {p q r : Pool} (h : p.Le q) (h' : q.Le r) : p.Le r :=
  ⟨h.constants.trans h'.constants, h.upvalues.trans h'.upvalues⟩

theorem Le.constant {p q : Pool} (h : p.Le q) {i : Nat} {k : ConstantKind}
    (hi : p.constants[i]? = some k) : q.constants[i]? = some k := by
  obtain ⟨rest, hq⟩ := h.constants
  rw [← hq, List.getElem?_append_left (List.getElem?_eq_some_iff.1 hi).1, hi]

/-- Which operand bytes an operation can have where the stack has a shape, and how many arguments
it is called with. Jumps, closures and returns are not meant. -/
def Operand (pool : Pool) (op : Opcode) (s : Shape) (args : List UInt8) (n : Nat) : Prop :=
  match op.operands, args with
  | .none, [] => op ≠ .ret ∧ n = 0
  | .byte, [b] =>
    match op with
    | .call => n = b.toNat
    | .getLocal | .setLocal => b.toNat < s.length ∧ n = 0
    | _ => b.toNat < pool.upvalues ∧ n = 0
  | .constant, [i] =>
    n = 0 ∧
      if op = .constant then i.toNat < pool.constants.length
      else pool.constants[i.toNat]? = some .string
  | .invocation, [i, k] => pool.constants[i.toNat]? = some .string ∧ n = k.toNat
  | _, _ => False

theorem Operand.mono {p q : Pool} {op : Opcode} {s s' : Shape} {args : List UInt8} {n : Nat}
    (h : p.Operand op s args n) (hpool : p.Le q) (hlength : s.length ≤ s'.length) :
    q.Operand op s' args n := by
  have hcount := hpool.constants.length_le
  have hup := hpool.upvalues
  unfold Operand at h ⊢
  split at h
  · exact h
  · split at h
    · exact h
    · exact ⟨h.1.trans_le hlength, h.2⟩
    · exact ⟨h.1.trans_le hlength, h.2⟩
    · exact ⟨h.1.trans_le hup, h.2⟩
  · refine ⟨h.1, ?_⟩
    have hi := h.2
    split at hi
    · rename_i hop
      rw [if_pos hop]
      exact hi.trans_le hcount
    · rename_i hop
      rw [if_neg hop]
      exact hpool.constant hi
  · exact ⟨hpool.constant h.1, h.2⟩
  · exact h.elim

end Pool

/-! ## Instructions in a layout -/

/-- The shapes of the stack where instructions start. -/
abbrev Layout := Nat → Option Shape

namespace Layout

/-- Control can go to offset `t` with a stack of shape `s`. -/
def Leads (layout : Layout) (t : Nat) (s : Shape) : Prop := ∃ s', layout t = some s' ∧ s.Le s'

/-- The `n` bytes at offset `o` are all of one instruction, and the next one starts after them. -/
structure Spans (layout : Layout) (size o n : Nat) : Prop where
  inside : o + n ≤ size
  interior : ∀ t, o < t → t < o + n → layout t = none
  next : o + n = size ∨ (layout (o + n)).isSome = true

theorem Leads.trans {layout : Layout} {t : Nat} {s s' : Shape} (hle : s.Le s')
    (h : layout.Leads t s') : layout.Leads t s := by
  obtain ⟨s'', hs, hle'⟩ := h
  exact ⟨s'', hs, hle.trans hle'⟩

end Layout

/-- Two bytes as a distance, the high byte first. -/
def distance (high low : UInt8) : Nat := high.toNat * 256 + low.toNat

/-- The bytes that name a captured variable. -/
def Capture.bytes (c : Capture) : List UInt8 := [if c.isLocal then 1 else 0, c.index]

/-- A captured variable exists where a closure has just been made: it is one that the function
captures itself, or in a slot marked for it. -/
def Capture.Exists (pool : Pool) (s : Shape) (c : Capture) : Prop :=
  if c.isLocal then s.slot? c.index.toNat = some true else c.index.toNat < pool.upvalues

/-- The bytes of an instruction at `o` are right for a stack of shape `s`, and control goes on only
to places of the layout that expect what the instruction leaves. -/
inductive Goes (pool : Pool) (layout : Layout) (o : Nat) (s : Shape) : List UInt8 → Prop
  | plain {op : Opcode} {args : List UInt8} {n : Nat} (operand : pool.Operand op s args n)
      (enough : op.needs n ≤ s.length)
      (clear : op ≠ .closeUpvalue → ∀ b ∈ s.take (op.pops n), b = false)
      (next : layout.Leads (o + 1 + args.length) (op.effect n s)) :
      Goes pool layout o s (op.toByte :: args)
  | ret (clear : s.head? = some false) : Goes pool layout o s [Opcode.ret.toByte]
  | jump {high low : UInt8} (target : layout.Leads (o + 3 + distance high low) s) :
      Goes pool layout o s [Opcode.jump.toByte, high, low]
  | jumpIfFalse {high low : UInt8} (enough : 0 < s.length) (next : layout.Leads (o + 3) s)
      (target : layout.Leads (o + 3 + distance high low) s) :
      Goes pool layout o s [Opcode.jumpIfFalse.toByte, high, low]
  | loop {high low : UInt8} {t : Nat} (back : t + distance high low = o + 3)
      (target : layout.Leads t s) : Goes pool layout o s [Opcode.loop.toByte, high, low]
  | closure {i : UInt8} {captures : List Capture} {s' : Shape}
      (constant : pool.constants[i.toNat]? = some (.function captures.length))
      (shape : Shape.Le (false :: s) s') (captured : ∀ c ∈ captures, c.Exists pool s')
      (next : layout.Leads (o + 2 + (captures.flatMap Capture.bytes).length) s') :
      Goes pool layout o s (Opcode.closure.toByte :: i :: captures.flatMap Capture.bytes)

theorem Goes.mono {p q : Pool} {layout layout' : Layout} {o : Nat} {s : Shape} {bytes : List UInt8}
    (h : Goes p layout o s bytes) (hpool : p.Le q)
    (hleads : ∀ t s, layout.Leads t s → layout'.Leads t s) : Goes q layout' o s bytes := by
  cases h with
  | plain operand enough clear next =>
    exact .plain (operand.mono hpool le_rfl) enough clear (hleads _ _ next)
  | ret clear => exact .ret clear
  | jump target => exact .jump (hleads _ _ target)
  | jumpIfFalse enough next target =>
    exact .jumpIfFalse enough (hleads _ _ next) (hleads _ _ target)
  | loop back target => exact .loop back (hleads _ _ target)
  | closure constant shape captured next =>
    refine .closure (hpool.constant constant) shape (fun c hc => ?_) (hleads _ _ next)
    have hex := captured c hc
    unfold Capture.Exists at hex ⊢
    split at hex
    · rename_i hl
      rw [if_pos hl]
      exact hex
    · rename_i hl
      rw [if_neg hl]
      exact hex.trans_le hpool.upvalues

/-- The bytes stand in the code from offset `o` on. -/
def Holds (code : Array UInt8) (o : Nat) (bytes : List UInt8) : Prop :=
  ∀ i < bytes.length, code[o + i]? = bytes[i]?

/-- The instruction at `o` is right for a stack of shape `s`. -/
def Fits (pool : Pool) (code : Array UInt8) (layout : Layout) (o : Nat) (s : Shape) : Prop :=
  ∃ bytes, Holds code o bytes ∧ layout.Spans code.size o bytes.length ∧ Goes pool layout o s bytes

end LoxMachine
