import LoxMachine.Proofs.Code.Layout

/-!
# The bytecode verifier

What a verifier checks of one function, without reference to a layout.

* `Function.instructionAt?` reads the instruction at an offset, with all its operand bytes.
* `Function.Start` are the offsets that are found by reading instruction after instruction from the
  start, and `Function.Reaches` the pairs of an offset and a stack depth that control can come to.
* `Function.Verified` is the check: the code splits into whole instructions with proper operands,
  jumps go to instructions, and every offset has one depth, which is enough for the instruction
  there. Control never comes to the end of the code.
* `verified_of_wellLaid`: laid out code is verified, and `lineAt_of_wellLaid`: each of its instructions is
  on one line.
-/

namespace LoxMachine

/-- An operation with its operand bytes. -/
structure Instruction where
  op : Opcode
  args : List UInt8

namespace Instruction

/-- How many bytes an instruction has. -/
def size (i : Instruction) : Nat := 1 + i.args.length

/-- How many arguments an instruction calls with. -/
def count (i : Instruction) : Nat :=
  match i.op, i.args with
  | .call, [n] => n.toNat
  | .invoke, [_, n] => n.toNat
  | .superInvoke, [_, n] => n.toNat
  | _, _ => 0

/-- Where an instruction at offset `o` can jump to. -/
def targets (i : Instruction) (o : Nat) : List Int :=
  match i.op, i.args with
  | .jump, [high, low] => [o + 3 + distance high low]
  | .jumpIfFalse, [high, low] => [o + 3 + distance high low]
  | .loop, [high, low] => [o + 3 - distance high low]
  | _, _ => []

/-- Where control goes after an instruction at offset `o` that starts with `d` values on the stack,
and how many there are then. -/
def successors (i : Instruction) (o d : Nat) : List (Int × Nat) :=
  match i.op with
  | .ret => []
  | .jump | .loop => (i.targets o).map fun t => (t, d)
  | .jumpIfFalse => (o + i.size, d) :: (i.targets o).map fun t => (t, d)
  | op => [(o + i.size, d - op.pops i.count + op.pushes)]

/-- The pairs of bytes after the first operand byte of a closure. -/
def pairs : List UInt8 → List (UInt8 × UInt8)
  | origin :: index :: rest => (origin, index) :: pairs rest
  | _ => []

/-- The slots that an instruction refers to exist where the stack has `d` values. The variable that
a closure is about to fill may be captured by it. -/
def SlotsIn (d : Nat) (i : Instruction) : Prop :=
  match i.op, i.args with
  | .getLocal, [slot] => slot.toNat < d
  | .setLocal, [slot] => slot.toNat < d
  | .closure, _ :: captures => ∀ pair ∈ pairs captures, pair.1 = 1 → pair.2.toNat ≤ d
  | _, _ => True

end Instruction

namespace Function

/-- What the instructions of a function can refer to. -/
def pool (heap : Heap) (f : Function) : Pool :=
  ⟨f.chunk.constants.toList.map heap.constantKind, f.upvalueCount⟩

/-- How many operand bytes an operation at offset `o` has. The number of variables that a closure
captures is that of its function. -/
def operandSize? (heap : Heap) (f : Function) (o : Nat) (op : Opcode) : Option Nat :=
  match op.operands with
  | .none => some 0
  | .byte | .constant => some 1
  | .forward | .backward | .invocation => some 2
  | .captures => do
    let i ← f.chunk.code[o + 1]?
    match (f.pool heap).constants[i.toNat]? with
    | some (.function upvalues) => some (1 + 2 * upvalues)
    | _ => none

/-- The instruction at an offset, if the code holds all of it. -/
def instructionAt? (heap : Heap) (f : Function) (o : Nat) : Option Instruction := do
  let op ← Opcode.ofByte? (← f.chunk.code[o]?)
  let n ← f.operandSize? heap o op
  if o + 1 + n ≤ f.chunk.size then
    some ⟨op, (f.chunk.code.extract (o + 1) (o + 1 + n)).toList⟩
  else none

/-- The operands of an instruction are of the kinds that the machine demands. -/
def ProperOperands (heap : Heap) (f : Function) (i : Instruction) : Prop :=
  match i.op.operands, i.args with
  | .constant, [c] =>
    if i.op = .constant then c.toNat < f.chunk.constants.size
    else (f.pool heap).constants[c.toNat]? = some .string
  | .invocation, [c, _] => (f.pool heap).constants[c.toNat]? = some .string
  | .byte, [b] => i.op = .getUpvalue ∨ i.op = .setUpvalue → b.toNat < f.upvalueCount
  | .captures, c :: captures =>
    (f.pool heap).constants[c.toNat]? = some (.function (Instruction.pairs captures).length) ∧
      captures.length = 2 * (Instruction.pairs captures).length ∧
      ∀ pair ∈ Instruction.pairs captures,
        (pair.1 = 0 ∨ pair.1 = 1) ∧ (pair.1 = 0 → pair.2.toNat < f.upvalueCount)
  | _, _ => True

/-- The offsets found by reading instruction after instruction. -/
inductive Start (heap : Heap) (f : Function) : Nat → Prop
  | zero : Start heap f 0
  | next {o : Nat} {i : Instruction} : Start heap f o → f.instructionAt? heap o = some i →
      Start heap f (o + i.size)

/-- The offsets that control can come to, each with how many values are on the stack then. -/
inductive Reaches (heap : Heap) (f : Function) : Nat → Nat → Prop
  | entry : Reaches heap f 0 (f.arity + 1)
  | step {o d t d' : Nat} {i : Instruction} : Reaches heap f o d →
      f.instructionAt? heap o = some i → ((t : Int), d') ∈ i.successors o d → Reaches heap f t d'

/-- What the verifier checks. -/
structure Verified (heap : Heap) (f : Function) : Prop where
  /-- The code splits into whole instructions. -/
  whole : ∀ o, f.Start heap o → o = f.chunk.size ∨ ∃ i, f.instructionAt? heap o = some i
  operands : ∀ o i, f.Start heap o → f.instructionAt? heap o = some i → f.ProperOperands heap i
  /-- Jumps go to instructions of the same function. -/
  targets : ∀ o i, f.Start heap o → f.instructionAt? heap o = some i → ∀ t ∈ i.targets o,
    ∃ t' : Nat, t = t' ∧ f.Start heap t' ∧ t' < f.chunk.size
  unique : ∀ o d d', f.Reaches heap o d → f.Reaches heap o d' → d = d'
  enough : ∀ o d i, f.Reaches heap o d → f.instructionAt? heap o = some i →
    i.op.needs i.count ≤ d ∧ i.SlotsIn d
  /-- Control does not run off the end. -/
  inside : ∀ o d, f.Reaches heap o d → o < f.chunk.size

end Function

variable {heap : Heap} {f : Function} {layout : Layout} {o t d : Nat} {s : Shape}
  {i : Instruction} {bytes args : List UInt8} {op : Opcode}

/-! ## Reading instructions -/

theorem Holds.extract {code : Array UInt8} {b : UInt8} (h : Holds code o (b :: args))
    (hin : o + (1 + args.length) ≤ code.size) :
    (code.extract (o + 1) (o + 1 + args.length)).toList = args := by
  refine List.ext_getElem? fun i => ?_
  rw [Array.getElem?_toList]
  by_cases hi : i < args.length
  · have hbyte := h (i + 1) (by simp [hi])
    rw [Array.getElem?_extract, if_pos (by omega), show o + 1 + i = o + (i + 1) by omega, hbyte]
    simp
  · rw [Array.getElem?_eq_none (by simp; omega), List.getElem?_eq_none (by omega)]

/-- An instruction whose bytes stand in the code is read. -/
theorem instructionAt?_of_holds (h : Holds f.chunk.code o (op.toByte :: args))
    (hsize : f.operandSize? heap o op = some args.length)
    (hin : o + (1 + args.length) ≤ f.chunk.size) :
    f.instructionAt? heap o = some ⟨op, args⟩ := by
  have hop : f.chunk.code[o]? = some op.toByte := by simpa using h 0 (by simp)
  unfold Function.instructionAt?
  simp only [hop, Option.bind_eq_bind, Option.bind_some, Opcode.ofByte?_toByte, hsize]
  rw [if_pos (by omega), h.extract (by simpa [Chunk.size] using hin)]

/-- The number of operand bytes of an instruction that is neither a jump nor a closure. -/
theorem Pool.Operand.size {pool : Pool} {n : Nat} (h : pool.Operand op s args n) (heap : Heap)
    (f : Function) (o : Nat) :
    f.operandSize? heap o op = some args.length := by
  unfold Pool.Operand at h
  unfold Function.operandSize?
  split at h <;> simp_all

theorem pairs_flatMap_bytes (captures : List Capture) :
    Instruction.pairs (captures.flatMap Capture.bytes) =
      captures.map fun c => (if c.isLocal then 1 else 0, c.index) := by
  induction captures with
  | nil => rfl
  | cons c captures ih => simp [Capture.bytes, Instruction.pairs, ih]

theorem length_flatMap_bytes (captures : List Capture) :
    (captures.flatMap Capture.bytes).length = 2 * captures.length := by
  induction captures with
  | nil => rfl
  | cons c captures ih => simp [Capture.bytes, ih]; omega

/-! ## What fits is verified -/

/-- What is checked of one instruction that starts with the shape `s`. -/
structure Checks (heap : Heap) (f : Function) (layout : Layout) (o : Nat) (s : Shape)
    (i : Instruction) : Prop where
  read : f.instructionAt? heap o = some i
  span : layout.Spans f.chunk.size o i.size
  operands : f.ProperOperands heap i
  targets : ∀ t ∈ i.targets o, ∃ t' : Nat, t = t' ∧ layout.Leads t' s
  enough : i.op.needs i.count ≤ s.length
  slots : i.SlotsIn s.length
  successors : ∀ t d : Nat, ((t : Int), d) ∈ i.successors o s.length →
    ∃ s', s'.length = d ∧ layout.Leads t s'

/-- How many arguments an instruction calls with can be read off its operands. -/
theorem Pool.Operand.count {pool : Pool} {n : Nat} (h : pool.Operand op s args n) :
    (⟨op, args⟩ : Instruction).count = n := by
  unfold Pool.Operand at h
  split at h
  · rename_i hop
    cases op <;> simp_all [Opcode.operands, Instruction.count]
  · rename_i hop
    cases op <;> simp_all [Opcode.operands, Instruction.count]
  · rename_i hop
    cases op <;> simp_all [Opcode.operands, Instruction.count]
  · rename_i hop
    cases op <;> simp_all [Opcode.operands, Instruction.count]
  · exact h.elim

/-- An operation with such operands is no return, no jump and makes no closure. -/
theorem Pool.Operand.plain {pool : Pool} {n : Nat} (h : pool.Operand op s args n) :
    op ≠ .ret ∧ op ≠ .jump ∧ op ≠ .loop ∧ op ≠ .jumpIfFalse ∧ op ≠ .closure := by
  refine ⟨?_, ?_, ?_, ?_, ?_⟩ <;> rintro rfl <;> cases args <;> simp [Pool.Operand, Opcode.operands] at h

/-- Control goes on after it. -/
theorem Pool.Operand.successors {pool : Pool} {n : Nat} (h : pool.Operand op s args n) (o d : Nat) :
    Instruction.successors ⟨op, args⟩ o d =
      [((o : Int) + Instruction.size ⟨op, args⟩, d - op.pops n + op.pushes)] := by
  have hcount := h.count
  obtain ⟨hret, hjump, hloop, hif, -⟩ := h.plain
  unfold Instruction.successors
  split <;> simp_all

theorem checks_plain {n : Nat} (hholds : Holds f.chunk.code o (op.toByte :: args))
    (hspan : layout.Spans f.chunk.size o (1 + args.length))
    (hoperand : (f.pool heap).Operand op s args n) (henough : op.needs n ≤ s.length)
    (hnext : layout.Leads (o + 1 + args.length) (op.effect n s)) :
    Checks heap f layout o s ⟨op, args⟩ := by
  have hcount := hoperand.count
  have hread := instructionAt?_of_holds hholds (hoperand.size heap f o) hspan.inside
  obtain ⟨hret, hjump, hloop, hif, hclosure⟩ := hoperand.plain
  have htargets : Instruction.targets ⟨op, args⟩ o = [] := by
    unfold Instruction.targets
    split <;> simp_all
  have hsucc := hoperand.successors o s.length
  refine ⟨hread, hspan, ?_, by simp [htargets], by rw [hcount]; exact henough, ?_, fun t d hm => ?_⟩
  · unfold Pool.Operand at hoperand
    unfold Function.ProperOperands
    split at hoperand <;> simp_all [Function.pool]
    · cases op <;> simp_all
  · unfold Instruction.SlotsIn
    split
    · rename_i slot hop hargs
      obtain rfl : op = .getLocal := hop
      obtain rfl : args = [slot] := hargs
      exact hoperand.1
    · rename_i slot hop hargs
      obtain rfl : op = .setLocal := hop
      obtain rfl : args = [slot] := hargs
      exact hoperand.1
    · rename_i hop _
      exact absurd hop hclosure
    · trivial
  · rw [hsucc, List.mem_singleton, Prod.mk.injEq] at hm
    refine ⟨op.effect n s, by rw [Opcode.length_effect, hm.2], ?_⟩
    have ht : t = o + 1 + args.length := by
      have := hm.1
      simp only [Instruction.size] at this
      omega
    rw [ht]
    exact hnext

/-- What is checked of an instruction that jumps. -/
theorem checks_jump {high low : UInt8}
    (hop : op.operands = .forward ∨ op.operands = .backward)
    (hholds : Holds f.chunk.code o [op.toByte, high, low])
    (hspan : layout.Spans f.chunk.size o 3) (henough : op.needs 0 ≤ s.length)
    (htargets : ∀ t ∈ Instruction.targets ⟨op, [high, low]⟩ o,
      ∃ t' : Nat, t = t' ∧ layout.Leads t' s)
    (hnext : op = .jumpIfFalse → layout.Leads (o + 3) s) :
    Checks heap f layout o s ⟨op, [high, low]⟩ := by
  have hsize : f.operandSize? heap o op = some [high, low].length := by
    unfold Function.operandSize?
    rcases hop with hop | hop <;> simp [hop]
  have hread := instructionAt?_of_holds hholds hsize hspan.inside
  have hkind : op = .jump ∨ op = .jumpIfFalse ∨ op = .loop := by
    cases op <;> simp [Opcode.operands] at hop ⊢
  have hjumps : ∀ t d : Nat, ((t : Int), d) ∈
      (Instruction.targets ⟨op, [high, low]⟩ o).map (fun t => (t, s.length)) →
      ∃ s', s'.length = d ∧ layout.Leads t s' := by
    intro t d hm
    obtain ⟨t₀, ht₀, heq⟩ := List.mem_map.1 hm
    obtain ⟨rfl, rfl⟩ := Prod.mk.inj heq
    obtain ⟨t', ht', hleads⟩ := htargets _ ht₀
    obtain rfl : t = t' := by exact_mod_cast ht'
    exact ⟨s, rfl, hleads⟩
  refine ⟨hread, hspan, ?_, htargets, ?_, ?_, fun t d hm => ?_⟩
  · rcases hkind with rfl | rfl | rfl <;> trivial
  · rcases hkind with rfl | rfl | rfl <;> exact henough
  · rcases hkind with rfl | rfl | rfl <;> trivial
  · rcases hkind with rfl | rfl | rfl
    · exact hjumps t d hm
    · rcases List.mem_cons.1 hm with heq | hm
      · obtain ⟨ht, rfl⟩ := Prod.mk.inj heq
        obtain rfl : t = o + 3 := by
          simp only [Instruction.size, List.length_cons, List.length_nil] at ht
          omega
        exact ⟨s, rfl, hnext rfl⟩
      · exact hjumps t d hm
    · exact hjumps t d hm

theorem checks_closure {c : UInt8} {captures : List Capture} {s' : Shape}
    (hholds : Holds f.chunk.code o
      (Opcode.closure.toByte :: c :: captures.flatMap Capture.bytes))
    (hspan : layout.Spans f.chunk.size o (2 + (captures.flatMap Capture.bytes).length))
    (hconstant : (f.pool heap).constants[c.toNat]? = some (.function captures.length))
    (hshape : Shape.Le (false :: s) s') (hcaptured : ∀ c ∈ captures, c.Exists (f.pool heap) s')
    (hnext : layout.Leads (o + 2 + (captures.flatMap Capture.bytes).length) s') :
    Checks heap f layout o s ⟨.closure, c :: captures.flatMap Capture.bytes⟩ := by
  have hsize : f.operandSize? heap o .closure =
      some (c :: captures.flatMap Capture.bytes).length := by
    have hc : f.chunk.code[o + 1]? = some c := by simpa using hholds 1 (by simp)
    rw [List.length_cons, length_flatMap_bytes, Nat.add_comm]
    simp [Function.operandSize?, Opcode.operands, hc, hconstant]
  have hlength : Instruction.size ⟨.closure, c :: captures.flatMap Capture.bytes⟩ =
      2 + (captures.flatMap Capture.bytes).length := by
    simp only [Instruction.size, List.length_cons]
    omega
  have hread := instructionAt?_of_holds hholds hsize (by
    have := hspan.inside
    simp only [List.length_cons]
    omega)
  refine ⟨hread, by rw [hlength]; exact hspan, ⟨?_, ?_, fun pair hp => ?_⟩, by
    simp [Instruction.targets], by simp [Opcode.needs, Opcode.pops], fun pair hp h1 => ?_,
    fun t d hm => ?_⟩
  · rw [pairs_flatMap_bytes, List.length_map, hconstant]
  · rw [pairs_flatMap_bytes, List.length_map, length_flatMap_bytes]
  · rw [pairs_flatMap_bytes] at hp
    obtain ⟨capture, hmem, rfl⟩ := List.mem_map.1 hp
    have hex := hcaptured capture hmem
    unfold Capture.Exists at hex
    cases hl : capture.isLocal
    · exact ⟨by simp, fun _ => by simpa [hl, Function.pool] using hex⟩
    · exact ⟨by simp, fun h0 => by simp at h0⟩
  · rw [pairs_flatMap_bytes] at hp
    obtain ⟨capture, hmem, rfl⟩ := List.mem_map.1 hp
    have hex := hcaptured capture hmem
    unfold Capture.Exists at hex
    cases hl : capture.isLocal
    · simp [hl] at h1
    · rw [if_pos hl] at hex
      have hlt := (List.getElem?_eq_some_iff.1 hex).1
      rw [List.length_reverse, ← hshape.length_eq, List.length_cons] at hlt
      exact Nat.lt_succ_iff.1 hlt
  · have heq := List.mem_singleton.1 hm
    obtain ⟨ht, rfl⟩ := Prod.mk.inj heq
    refine ⟨s', by rw [← hshape.length_eq]; simp [Opcode.pops, Opcode.pushes], ?_⟩
    obtain rfl : t = o + 2 + (captures.flatMap Capture.bytes).length := by
      rw [hlength] at ht
      omega
    exact hnext

/-- One instruction that fits is checked. -/
theorem Fits.checks (h : Fits (f.pool heap) f.chunk.code layout o s) :
    ∃ i, Checks heap f layout o s i := by
  obtain ⟨bytes, hholds, hspan, hgoes⟩ := h
  cases hgoes with
  | plain operand enough _ next =>
    refine ⟨_, checks_plain hholds ?_ operand enough next⟩
    rw [Nat.add_comm]
    exact hspan
  | ret clear =>
    have hread : f.instructionAt? heap o = some ⟨.ret, []⟩ :=
      instructionAt?_of_holds hholds rfl hspan.inside
    have enough : 0 < s.length := by
      obtain ⟨s', rfl⟩ := List.head?_eq_some_iff.1 clear
      exact Nat.succ_pos _
    exact ⟨⟨.ret, []⟩, hread, hspan, trivial, by simp [Instruction.targets],
      enough, trivial,
      fun t d hm => by simp [Instruction.successors] at hm⟩
  | jump target =>
    refine ⟨_, checks_jump (Or.inl rfl) hholds hspan (Nat.zero_le _) (fun t ht => ?_) (by simp)⟩
    exact ⟨_, List.mem_singleton.1 ht, target⟩
  | jumpIfFalse enough next target =>
    refine ⟨_, checks_jump (Or.inl rfl) hholds hspan enough (fun t ht => ?_) fun _ => next⟩
    exact ⟨_, List.mem_singleton.1 ht, target⟩
  | @loop high low t back target =>
    refine ⟨_, checks_jump (Or.inr rfl) hholds hspan (Nat.zero_le _) (fun t' ht => ?_) (by simp)⟩
    refine ⟨t, ?_, target⟩
    rw [List.mem_singleton.1 ht]
    omega
  | closure constant shape captured next =>
    refine ⟨_, checks_closure hholds ?_ constant shape captured next⟩
    rw [Nat.add_comm]
    exact hspan

/-! ## The whole function -/

/-- A finished function has a layout whose instructions are all checked. -/
theorem Lays.checks {entry : Shape} (h : Lays (f.pool heap) f.chunk.written { entry } none layout)
    (hs : layout o = some s) : o < f.chunk.size ∧ ∃ i, Checks heap f layout o s i := by
  have hlt : o < f.chunk.code.size := by
    rcases Nat.lt_trichotomy o f.chunk.code.size with hlt | rfl | hgt
    · exact hlt
    · cases hs.symm.trans h.exit
    · rw [h.above o hgt] at hs
      cases hs
  refine ⟨hlt, ?_⟩
  rcases h.each o s hlt hs with hfits | hhole
  · exact hfits.checks
  · simp at hhole

/-- Reading instruction after instruction finds only offsets of the layout. -/
theorem Lays.of_start {entry : Shape} (h : Lays (f.pool heap) f.chunk.written { entry } none layout)
    (hstart : f.Start heap o) : o = f.chunk.size ∨ ∃ s, layout o = some s := by
  induction hstart with
  | zero =>
    obtain ⟨s, hs, -⟩ := h.entry
    exact Or.inr ⟨s, hs⟩
  | next _ hread ih =>
    rcases ih with rfl | ⟨s, hs⟩
    · simp [Function.instructionAt?, Chunk.size] at hread
    · obtain ⟨-, i, hc⟩ := h.checks hs
      rw [hc.read] at hread
      cases hread
      exact hc.span.next.imp_right Option.isSome_iff_exists.1

/-- Reading instruction after instruction finds every offset of the layout: none is inside of an
instruction. -/
theorem Lays.start {entry : Shape} (h : Lays (f.pool heap) f.chunk.written { entry } none layout)
    (hs : layout t = some s) : f.Start heap t := by
  have hfind : ∀ n o, t - o = n → o ≤ t → f.Start heap o → f.Start heap t := by
    intro n
    induction n using Nat.strong_induction_on with
    | _ n ih =>
      intro o hn hle hstart
      rcases Nat.eq_or_lt_of_le hle with rfl | hlt
      · exact hstart
      obtain ⟨ht, -⟩ := h.checks hs
      rcases h.of_start hstart with rfl | ⟨s₁, hs₁⟩
      · omega
      obtain ⟨-, i, hc⟩ := h.checks hs₁
      have hpos : 0 < i.size := by
        simp only [Instruction.size]
        omega
      have hpast : o + i.size ≤ t := by
        by_contra hin
        have hnone := hc.span.interior t hlt (by omega)
        rw [hs] at hnone
        cases hnone
      exact ih (t - (o + i.size)) (by omega) _ rfl hpast (hstart.next hc.read)
  exact hfind _ 0 rfl (Nat.zero_le t) .zero

theorem Lays.of_reaches {entry : Shape}
    (h : Lays (f.pool heap) f.chunk.written { entry } none layout) (hentry : entry.length = f.arity + 1)
    (hreaches : f.Reaches heap o d) : ∃ s, layout o = some s ∧ s.length = d := by
  induction hreaches with
  | entry =>
    obtain ⟨s, hs, hle⟩ := h.entry
    exact ⟨s, hs, by rw [← hle.length_eq, hentry]⟩
  | step _ hread hm ih =>
    obtain ⟨s, hs, rfl⟩ := ih
    obtain ⟨-, i, hc⟩ := h.checks hs
    rw [hc.read] at hread
    cases hread
    obtain ⟨s', rfl, s'', hs'', hle⟩ := hc.successors _ _ hm
    exact ⟨s'', hs'', hle.length_eq.symm⟩

/-- **The bytes of an instruction are of one line.** -/
theorem lineAt_of_wellLaid {entry : Shape} (h : WellLaid (f.pool heap) f.chunk.written { entry } none)
    (hstart : f.Start heap o) (hread : f.instructionAt? heap o = some i) {j : Nat} (hj : j < i.size) :
    f.chunk.lineAt (o + j) = f.chunk.lineAt o := by
  obtain ⟨layout, h⟩ := h
  rcases h.of_start hstart with rfl | ⟨s, hs⟩
  · simp [Function.instructionAt?, Chunk.size] at hread
  obtain ⟨-, i', hc⟩ := h.checks hs
  cases hc.read.symm.trans hread
  induction j with
  | zero => rfl
  | succ j ih =>
    have hin : o + (j + 1) < f.chunk.code.size := by
      have hspan := hc.span.inside
      unfold Chunk.size at hspan
      omega
    have hnone := hc.span.interior (o + (j + 1)) (by omega) (by omega)
    have hline : f.chunk.lines[o + (j + 1)]? = f.chunk.lines[o + j]? :=
      h.ruled _ hin (by omega) hnone
    rw [← ih (by omega), Chunk.lineAt, Chunk.lineAt, hline]

/-- **Laid out code is verified.** -/
theorem verified_of_wellLaid {entry : Shape} (hentry : entry.length = f.arity + 1)
    (h : WellLaid (f.pool heap) f.chunk.written { entry } none) : f.Verified heap := by
  obtain ⟨layout, h⟩ := h
  refine ⟨fun o hstart => ?_, fun o i hstart hread => ?_, fun o i hstart hread t ht => ?_,
    fun o d d' hd hd' => ?_, fun o d i hreaches hread => ?_, fun o d hreaches => ?_⟩
  · rcases h.of_start hstart with heq | ⟨s, hs⟩
    · exact Or.inl heq
    · obtain ⟨-, i, hc⟩ := h.checks hs
      exact Or.inr ⟨i, hc.read⟩
  · rcases h.of_start hstart with rfl | ⟨s, hs⟩
    · simp [Function.instructionAt?, Chunk.size] at hread
    · obtain ⟨-, i, hc⟩ := h.checks hs
      rw [hc.read] at hread
      cases hread
      exact hc.operands
  · rcases h.of_start hstart with rfl | ⟨s, hs⟩
    · simp [Function.instructionAt?, Chunk.size] at hread
    · obtain ⟨-, i, hc⟩ := h.checks hs
      rw [hc.read] at hread
      cases hread
      obtain ⟨t', rfl, s', hs', -⟩ := hc.targets t ht
      exact ⟨t', rfl, h.start hs', (h.checks hs').1⟩
  · obtain ⟨s, hs, rfl⟩ := h.of_reaches hentry hd
    obtain ⟨s', hs', rfl⟩ := h.of_reaches hentry hd'
    rw [hs] at hs'
    cases hs'
    rfl
  · obtain ⟨s, hs, rfl⟩ := h.of_reaches hentry hreaches
    obtain ⟨-, i, hc⟩ := h.checks hs
    rw [hc.read] at hread
    cases hread
    exact ⟨hc.enough, hc.slots⟩
  · obtain ⟨s, hs, -⟩ := h.of_reaches hentry hreaches
    exact (h.checks hs).1

end LoxMachine
