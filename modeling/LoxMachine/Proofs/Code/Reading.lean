import LoxMachine.Proofs.Code.Functions

/-!
# Reading instructions

* `Function.Takes`: the bytes that an operation takes for its operands.
* `instructionAt?_eq_some_iff`: an instruction is read where its bytes stand in the code and are those that its
  operation takes.
-/

namespace LoxMachine

variable {heap : Heap} {f : Function} {o n : Nat} {i : Instruction} {args rest : List UInt8} {op : Opcode}
  {code : Array UInt8} {c : Chunk} {b high low : UInt8}

/-- The operation takes these bytes for its operands. How many a closure takes is told by its function. -/
inductive Function.Takes (heap : Heap) (f : Function) (op : Opcode) : List UInt8 → Prop
  | none (h : op.operands = .none) : Takes heap f op []
  | byte (h : op.operands = .byte) (b : UInt8) : Takes heap f op [b]
  | constant (h : op.operands = .constant) (c : UInt8) : Takes heap f op [c]
  | forward (h : op.operands = .forward) (high low : UInt8) : Takes heap f op [high, low]
  | backward (h : op.operands = .backward) (high low : UInt8) : Takes heap f op [high, low]
  | invocation (h : op.operands = .invocation) (c count : UInt8) : Takes heap f op [c, count]
  | captures {c : UInt8} {captures : List UInt8} {x : Handle} {g : Function} (h : op.operands = .captures)
      (constant : f.chunk.constants[c.toNat]? = some (.obj x)) (function : heap.function x = .ok g)
      (length : captures.length = 2 * g.upvalueCount) : Takes heap f op (c :: captures)

/-! ## Bytes in the code -/

namespace Holds

theorem getElem? (h : Holds code o (b :: rest)) : code[o]? = some b := by simpa using h 0 (by simp)

theorem tail (h : Holds code o (b :: rest)) : Holds code (o + 1) rest := by
  intro j hj
  have hbyte := h (j + 1) (by simpa using hj)
  rwa [List.getElem?_cons_succ, ← Nat.add_assoc, Nat.add_right_comm] at hbyte

theorem length_le (h : Holds code o args) (hne : args ≠ []) : o + args.length ≤ code.size := by
  have hpos := List.length_pos_iff.2 hne
  have hlast := h (args.length - 1) (by omega)
  rw [List.getElem?_eq_getElem (by omega)] at hlast
  have hlt := (Array.getElem?_eq_some_iff.1 hlast).1
  omega

theorem of_extract (hb : code[o]? = some b) : Holds code o (b :: (code.extract (o + 1) (o + 1 + n)).toList) := by
  intro j hj
  cases j with
  | zero => exact hb
  | succ j =>
    rw [List.length_cons, Array.length_toList, Array.size_extract] at hj
    rw [List.getElem?_cons_succ, Array.getElem?_toList, Array.getElem?_extract, if_pos (by omega)]
    congr 1
    omega

theorem read8 (h : Holds c.code o (b :: rest)) : c.read8 o = .ok b := by rw [Chunk.read8, h.getElem?]

theorem read16 (h : Holds c.code o (high :: low :: rest)) : c.read16 o = .ok (distance high low) := by
  rw [Chunk.read16, h.read8, h.tail.read8]
  rfl

end Holds

/-! ## Instructions -/

namespace Function

theorem pool_eq_function_iff {j : Nat} : (f.pool heap).constants[j]? = some (.function n) ↔
    ∃ x g, f.chunk.constants[j]? = some (.obj x) ∧ heap.function x = .ok g ∧ g.upvalueCount = n := by
  rw [pool, List.getElem?_map, Array.getElem?_toList, Option.map_eq_some_iff]
  constructor
  · rintro ⟨v, hv, hkind⟩
    cases v with
    | obj x =>
      obtain ⟨g, bytes, hcell, rfl⟩ := Heap.constantKind_eq_function_iff.1 hkind
      exact ⟨x, g, hv, Heap.function_eq_ok_iff.2 ⟨bytes, hcell⟩, rfl⟩
    | _ => cases hkind
  · rintro ⟨x, g, hv, hg, rfl⟩
    obtain ⟨bytes, hcell⟩ := Heap.function_eq_ok_iff.1 hg
    exact ⟨.obj x, hv, Heap.constantKind_eq_function_iff.2 ⟨g, bytes, hcell, rfl⟩⟩

/-- The number of operand bytes is right for bytes that stand after the opcode. -/
theorem operandSize?_eq_iff (h : Holds f.chunk.code o (op.toByte :: args)) :
    f.operandSize? heap o op = some args.length ↔ f.Takes heap op args := by
  unfold operandSize?
  constructor
  · intro hsize
    cases hop : op.operands with
    | none =>
      obtain rfl : args = [] := by simpa [hop, eq_comm] using hsize
      exact .none hop
    | byte =>
      obtain ⟨b, rfl⟩ : ∃ b, args = [b] := by simpa [hop, eq_comm, List.length_eq_one_iff] using hsize
      exact .byte hop b
    | constant =>
      obtain ⟨c, rfl⟩ : ∃ c, args = [c] := by simpa [hop, eq_comm, List.length_eq_one_iff] using hsize
      exact .constant hop c
    | forward =>
      obtain ⟨high, low, rfl⟩ : ∃ a b, args = [a, b] := by simpa [hop, eq_comm, List.length_eq_two] using hsize
      exact .forward hop high low
    | backward =>
      obtain ⟨high, low, rfl⟩ : ∃ a b, args = [a, b] := by simpa [hop, eq_comm, List.length_eq_two] using hsize
      exact .backward hop high low
    | invocation =>
      obtain ⟨c, count, rfl⟩ : ∃ a b, args = [a, b] := by simpa [hop, eq_comm, List.length_eq_two] using hsize
      exact .invocation hop c count
    | captures =>
      rw [hop] at hsize
      obtain ⟨c, hc, hsize⟩ := Option.bind_eq_some_iff.1 hsize
      split at hsize
      · rename_i n hkind
        obtain ⟨x, g, hx, hg, rfl⟩ := pool_eq_function_iff.1 hkind
        rw [Option.some.injEq] at hsize
        cases args with
        | nil =>
          rw [List.length_nil] at hsize
          omega
        | cons c' captures =>
          cases hc.symm.trans h.tail.getElem?
          rw [List.length_cons] at hsize
          exact .captures hop hx hg (by omega)
      · cases hsize
  · intro htakes
    cases htakes with
    | none hop | byte hop | constant hop | forward hop | backward hop | invocation hop => simp [hop]
    | captures hop hx hg hlength =>
      simp [hop, h.tail.getElem?, pool_eq_function_iff.2 ⟨_, _, hx, hg, rfl⟩, hlength, Nat.add_comm]

end Function

theorem instructionAt?_eq_some_iff : f.instructionAt? heap o = some i ↔
    Holds f.chunk.code o (i.op.toByte :: i.args) ∧ f.Takes heap i.op i.args := by
  constructor
  · intro h
    unfold Function.instructionAt? at h
    simp only [Option.bind_eq_bind, Option.bind_eq_some_iff] at h
    obtain ⟨b, hb, op, hop, n, hn, h⟩ := h
    split at h
    · rename_i hin
      cases h
      have hlength : (f.chunk.code.extract (o + 1) (o + 1 + n)).toList.length = n := by
        unfold Chunk.size at hin
        rw [Array.length_toList, Array.size_extract]
        omega
      rw [← Opcode.ofByte?_eq_some_iff.1 hop] at hb
      have hholds := Holds.of_extract (n := n) hb
      exact ⟨hholds, (Function.operandSize?_eq_iff hholds).1 (hn.trans (congrArg some hlength.symm))⟩
    · cases h
  · rintro ⟨hholds, htakes⟩
    have hle := hholds.length_le (List.cons_ne_nil _ _)
    rw [List.length_cons, Nat.add_comm i.args.length] at hle
    exact instructionAt?_of_holds hholds ((Function.operandSize?_eq_iff hholds).2 htakes) hle

end LoxMachine
