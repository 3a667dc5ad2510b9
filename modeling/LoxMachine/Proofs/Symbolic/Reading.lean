import LoxMachine.Proofs.Machine.Fetching
import LoxMachine.Proofs.Symbolic.Charts
import LoxMachine.Proofs.Symbolic.Decoding

/-!
# Instructions of the machine in symbolic code

* `Spells.instruction`: where an instruction stands in symbolic code, the instruction that the machine reads
  there is one that it stands for.
* `Spells.size`, `Spells.opcode`, `Spells.count`, `Spells.jumps`: what can be read off the symbolic instruction.
-/

namespace LoxMachine.Symbolic

namespace Instruction

/-- The operands are those that the operation has. -/
def Formed : Instruction → Prop
  | op o => o.operands = .none
  | named o _ => o.operands = .constant
  | invoke o _ _ => o.operands = .invocation
  | jump o _ => o.operands = .forward ∨ o.operands = .backward
  | _ => True

end Instruction

variable {code : Code} {i : Instruction} {o : Nat} {L : Linkage} {bytes bytes' args : List UInt8} {op : Opcode}
  {array : Array UInt8} {heap : Heap} {g : Function} {mi : LoxMachine.Instruction}

theorem holds_unique (h : Holds array o bytes) (h' : Holds array o bytes') (hlength : bytes.length = bytes'.length) :
    bytes = bytes' := by
  refine List.ext_getElem? fun j => ?_
  by_cases hj : j < bytes.length
  · rw [← h j hj, h' j (hlength ▸ hj)]
  · rw [List.getElem?_eq_none (by omega), List.getElem?_eq_none (by omega)]

/-- An instruction that makes no closure takes what its bytes say. -/
theorem Encodes.takes (h : Encodes L i bytes) (hformed : i.Formed) (heap : Heap) (g : Function) :
    ∃ op args, bytes = op.toByte :: args ∧ g.Takes heap op args := by
  cases h with
  | op op => exact ⟨op, [], rfl, .none hformed⟩
  | @number n c | @string s c => exact ⟨.constant, [c], rfl, .constant rfl c⟩
  | @get v c =>
    refine ⟨v.getter, [c], rfl, ?_⟩
    cases v with
    | global name => exact .constant rfl c
    | _ => exact .byte rfl c
  | @set v c =>
    refine ⟨v.setter, [c], rfl, ?_⟩
    cases v with
    | global name => exact .constant rfl c
    | _ => exact .byte rfl c
  | @named op name c => exact ⟨op, [c], rfl, .constant hformed c⟩
  | @invoke op name c count => exact ⟨op, [c, _], rfl, .invocation hformed c _⟩
  | @call count => exact ⟨.call, [_], rfl, .byte rfl _⟩
  | jump op => exact ⟨op, [_, _], rfl, hformed.elim (.forward · _ _) (.backward · _ _)⟩

/-- **The instruction that the machine reads** where an instruction of the symbolic code stands. -/
theorem Spells.instruction (h : Spells L code g.chunk.code.toList) (hL : L.constants = g.chunk.constants.toList)
    (hold : ∀ {x k}, heap.function x = .ok k → L.heap.function x = .ok k) (hat : Lies code o [i])
    (hformed : i.Formed) (hi : g.instructionAt? heap o = some mi) : Spells L [i] (mi.op.toByte :: mi.args) := by
  obtain ⟨piece, hpiece, hholds⟩ := h.lies hat
  obtain ⟨hbytes, htakes⟩ := instructionAt?_eq_some_iff.1 hi
  cases hpiece with
  | plain hencodes more =>
    cases more
    rw [List.append_nil] at hholds
    obtain ⟨op, args, rfl, htakes'⟩ := hencodes.takes hformed heap g
    cases (instructionAt?_eq_some_iff.2 ⟨hholds, htakes'⟩ : g.instructionAt? heap o = some ⟨op, args⟩).symm.trans hi
    exact .single hencodes
  | @closure _ index x name f charged kind text arity captured body code pairs bytes constant cell named takes count
      inner hands more =>
    cases more
    have hlength := hands.length_eq
    have hop : mi.op = .closure := by
      have hbyte : mi.op.toByte = Opcode.closure.toByte :=
        Option.some.inj (hbytes.getElem?.symm.trans hholds.getElem?)
      exact Option.some.inj ((Opcode.ofByte?_toByte _).symm.trans
        ((congrArg Opcode.ofByte? hbyte).trans (Opcode.ofByte?_toByte _)))
    have hpairs : (pairs.flatMap fun p => [p.1, p.2]).length = 2 * pairs.length := by
      clear hholds hands hlength
      induction pairs with
      | nil => rfl
      | cons p pairs ih =>
        rw [List.flatMap_cons, List.length_append, ih, List.length_cons]
        simp only [List.length_nil, List.length_cons]
        omega
    obtain ⟨op, margs⟩ := mi
    obtain rfl : op = .closure := hop
    cases htakes with
    | @captures c captures y k _ hconstant hfunction hlong =>
      obtain rfl : c = index := Option.some.inj (hbytes.tail.getElem?.symm.trans hholds.tail.getElem?)
      rw [hL, Array.getElem?_toList, hconstant] at constant
      cases constant
      obtain rfl : k = f := Except.ok.inj ((hold hfunction).symm.trans (Heap.function_eq_ok_iff.2 ⟨charged, cell⟩))
      have heq := holds_unique hbytes hholds (by
        simp only [List.length_cons, List.length_append, List.length_nil, hpairs, hlong, count]
        omega)
      change Spells L _ (Opcode.closure.toByte :: _)
      rw [heq]
      exact .closure (hL ▸ by rw [Array.getElem?_toList]; exact hconstant) cell named takes count inner hands (.nil L)
    | none hop | byte hop | constant hop | forward hop | backward hop | invocation hop => cases hop

/-! ### What the bytes of one instruction say -/

theorem Spells.size (h : Spells L [i] (mi.op.toByte :: mi.args)) : mi.size = i.size := by
  have hlength := h.length_eq
  rw [List.length_cons] at hlength
  rw [LoxMachine.Instruction.size, Nat.add_comm]
  exact hlength

theorem Spells.bytes_eq {first : UInt8} {rest : List UInt8} (hclosure : ∀ k n c p body, i ≠ .closure k n c p body)
    (h : Spells L [i] (first :: rest)) : Encodes L i (first :: rest) := by
  generalize first :: rest = bytes at h
  cases h with
  | plain hencodes more =>
    cases more
    rwa [List.append_nil]
  | closure => exact absurd rfl (hclosure _ _ _ _ _)

theorem toByte_inj {a b : Opcode} (h : a.toByte = b.toByte) : a = b :=
  Option.some.inj ((Opcode.ofByte?_toByte a).symm.trans ((congrArg Opcode.ofByte? h).trans (Opcode.ofByte?_toByte b)))

/-- The operation of an instruction. -/
theorem Spells.opcode (h : Spells L [i] (mi.op.toByte :: mi.args)) : mi.op = i.opcode := by
  generalize hbytes : mi.op.toByte :: mi.args = bytes at h
  cases h with
  | plain hencodes more => cases hencodes <;> exact toByte_inj (List.cons.inj hbytes).1
  | closure => exact toByte_inj (List.cons.inj hbytes).1

/-- How many arguments an instruction calls with. -/
theorem Spells.count (h : Spells L [i] (mi.op.toByte :: mi.args)) (hformed : i.Formed) : mi.count = i.count := by
  obtain ⟨op, margs⟩ := mi
  obtain rfl : op = i.opcode := h.opcode
  cases i with
  | closure => rfl
  | invoke op name n =>
    cases h.bytes_eq (by simp) with
    | invoke op hname few =>
      have hn : (UInt8.ofNat n).toNat = n := by
        rw [UInt8.toNat_ofNat']
        exact Nat.mod_eq_of_lt (Nat.lt_succ_of_le few)
      cases op <;> first | exact hn | cases hformed
  | call n =>
    cases h.bytes_eq (by simp) with
    | call few =>
      have hn : (UInt8.ofNat n).toNat = n := by
        rw [UInt8.toNat_ofNat']
        exact Nat.mod_eq_of_lt (Nat.lt_succ_of_le few)
      exact hn
  | op op => cases op <;> first | rfl | cases hformed
  | named op name => cases op <;> first | rfl | cases hformed
  | jump op distance => cases op <;> first | rfl | (rcases hformed with hformed | hformed <;> cases hformed)
  | get v => cases v <;> rfl
  | set v => cases v <;> rfl
  | number | string => rfl

/-- Where a jump goes. -/
theorem Spells.jumps {distance : Nat} (h : Spells L [.jump op distance] (mi.op.toByte :: mi.args)) :
    ∃ high low, mi = ⟨op, [high, low]⟩ ∧ LoxMachine.distance high low = distance := by
  obtain ⟨mop, margs⟩ := mi
  obtain rfl : mop = op := h.opcode
  cases h.bytes_eq (by simp) with
  | jump op near => exact ⟨_, _, rfl, distance_ofNat (Nat.lt_succ_of_le near)⟩

end LoxMachine.Symbolic
