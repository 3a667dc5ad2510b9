import LoxMachine.Proofs.Machine.Operands
import LoxMachine.Proofs.Symbolic.Instructions

/-!
# Where symbolic instructions stand

* `Symbolic.Lies code o piece`: the piece of code stands at an offset.
* `Spells.encodes`: where an instruction stands in symbolic code, bytes that encode it stand in the code of the
  function.
-/

namespace LoxMachine.Symbolic

variable {code a b : Code} {i : Instruction} {o : Nat} {L : Linkage} {bytes : List UInt8}

/-! ## Pieces of code -/

/-- The piece of code stands at the offset. -/
def Lies (code : Code) (o : Nat) (piece : Code) : Prop :=
  ∃ done rest, code = done ++ (piece ++ rest) ∧ extent done = o

namespace Lies

theorem self (code : Code) : Lies code 0 code := ⟨[], [], by simp, rfl⟩

theorem left (h : Lies code o (a ++ b)) : Lies code o a := by
  obtain ⟨done, rest, rfl, rfl⟩ := h
  exact ⟨done, b ++ rest, by simp, rfl⟩

theorem right (h : Lies code o (a ++ b)) : Lies code (o + extent a) b := by
  obtain ⟨done, rest, rfl, rfl⟩ := h
  exact ⟨done ++ a, rest, by simp, by simp⟩

theorem head (h : Lies code o (i :: a)) : Lies code o [i] := left (a := [i]) h

theorem tail (h : Lies code o (i :: a)) : Lies code (o + i.size) a := right (a := [i]) h

end Lies

/-! ## Bytes of pieces -/

/-- Bytes that stand for some code after other code are in two parts. -/
theorem Spells.split (h : Spells L (a ++ b) bytes) :
    ∃ first second, bytes = first ++ second ∧ Spells L a first ∧ Spells L b second := by
  induction a generalizing bytes with
  | nil => exact ⟨[], bytes, rfl, .nil L, h⟩
  | cons i a ih =>
    rw [List.cons_append] at h
    cases h with
    | plain hi more =>
      obtain ⟨first, second, rfl, ha, hb⟩ := ih more
      exact ⟨_, second, (List.append_assoc _ _ _).symm, .plain hi ha, hb⟩
    | closure constant cell named takes count inner hands more =>
      obtain ⟨first, second, rfl, ha, hb⟩ := ih more
      exact ⟨_, second, (List.append_assoc _ _ _).symm,
        .closure constant cell named takes count inner hands ha, hb⟩

/-- The bytes of a piece of code stand where the piece stands. -/
theorem Spells.lies {array : Array UInt8} (h : Spells L code array.toList) (hat : Lies code o a) :
    ∃ piece, Spells L a piece ∧ Holds array o piece := by
  obtain ⟨done, rest, rfl, rfl⟩ := hat
  obtain ⟨first, second, hbytes, hfirst, hsecond⟩ := h.split
  obtain ⟨piece, last, rfl, hpiece, -⟩ := hsecond.split
  refine ⟨piece, hpiece, fun j hj => ?_⟩
  rw [← Array.getElem?_toList, hbytes, ← hfirst.length_eq, List.getElem?_append_right (Nat.le_add_right _ _),
    Nat.add_sub_cancel_left, List.getElem?_append_left hj]

/-- The bytes of an instruction that makes no closure. -/
theorem Spells.encodes {array : Array UInt8} (h : Spells L code array.toList) (hat : Lies code o [i])
    (hclosure : ∀ k n c p body, i ≠ .closure k n c p body) :
    ∃ piece, Encodes L i piece ∧ Holds array o piece := by
  obtain ⟨piece, hpiece, hholds⟩ := h.lies hat
  cases hpiece with
  | plain hi more =>
    cases more
    exact ⟨_, hi, by simpa using hholds⟩
  | closure => exact absurd rfl (hclosure _ _ _ _ _)

end LoxMachine.Symbolic
