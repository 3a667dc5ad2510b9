import LoxMachine.Proofs.Heap.Healthy
import LoxMachine.Proofs.Meaning.Evaluator
import LoxMachine.Session

/-!
# Data as values of the machine

* `Heap.Denotes heap clock v d`: the value `v` stands for the datum `d`. A string is an object with its
  contents, and `clock` is the only native function.
* Values stand for the same data as long as the objects that they name are kept (`Denotes.keep`).
* Values count as false, are equal and are displayed as the data that they stand for.
-/

namespace LoxMachine

namespace Heap

variable {heap heap' : Heap} {clock h : Handle} {v w : Value} {d e : Datum}

/-- The value stands for the datum. -/
inductive Denotes (heap : Heap) (clock : Handle) : Value → Datum → Prop
  | nil : Denotes heap clock .nil .nil
  | bool (b : Bool) : Denotes heap clock (.bool b) (.bool b)
  | number (n : Number) : Denotes heap clock (.number n) (.number n)
  | string {h : Handle} {s : String} (hs : heap.hasContents s h = true) :
    Denotes heap clock (.obj h) (.string s)
  | clock {bytes : Nat} (hc : heap.cell? clock = some ⟨.native .clock, bytes⟩) :
    Denotes heap clock (.obj clock) .clock

namespace Denotes

theorem cell (hd : heap.Denotes clock (.obj h) d) : ∃ cell, heap.cell? h = some cell := by
  cases hd with
  | string hs =>
    obtain ⟨text, bytes, hc, -⟩ := (hasContents_iff heap _ _).1 hs
    exact ⟨_, hc⟩
  | clock hc => exact ⟨_, hc⟩

/-- A value stands for the same datum in a heap in which its object is the same. -/
theorem keep (hd : heap.Denotes clock v d) (hkeep : ∀ x, v = .obj x → heap'.cell? x = heap.cell? x) :
    heap'.Denotes clock v d := by
  cases hd with
  | nil => exact .nil
  | bool b => exact .bool b
  | number n => exact .number n
  | string hs =>
    refine .string ?_
    rwa [hasContents_congr (hkeep _ rfl)]
  | clock hc => exact .clock ((hkeep _ rfl).trans hc)

theorem keep_all {vs : List Value} {ds : List Datum} (h : List.Forall₂ (heap.Denotes clock) vs ds)
    (hkeep : ∀ x, .obj x ∈ vs → heap'.cell? x = heap.cell? x) : List.Forall₂ (heap'.Denotes clock) vs ds := by
  induction h with
  | nil => exact .nil
  | cons hd _ ih =>
    refine .cons (hd.keep fun x hx => hkeep x (hx ▸ List.mem_cons_self)) (ih fun x hx => ?_)
    exact hkeep x (List.mem_cons_of_mem _ hx)

theorem isFalsey_eq (hd : heap.Denotes clock v d) : v.isFalsey = d.isFalsey := by
  cases hd <;> rfl

/-- The clock is no string. -/
theorem clock_ne {s : String} (hs : heap.hasContents s h = true) {bytes : Nat}
    (hc : heap.cell? clock = some ⟨.native .clock, bytes⟩) : h ≠ clock := by
  rintro rfl
  obtain ⟨text, bytes', hc', -⟩ := (hasContents_iff heap s h).1 hs
  rw [hc] at hc'
  cases hc'

theorem equals_eq (hi : heap.Interned) (hd : heap.Denotes clock v d) (he : heap.Denotes clock w e) :
    v.equals w = d.equals e := by
  cases hd with
  | @string h s hs =>
    cases he with
    | @string h' s' hs' =>
      rw [Value.equals_obj, Bool.eq_iff_iff, beq_iff_eq]
      change h = h' ↔ (s == s') = true
      rw [beq_iff_eq]
      constructor
      · rintro rfl
        exact hasContents_inj hs hs'
      · rintro rfl
        exact hi.unique _ _ _ hs hs'
    | clock hc => exact beq_eq_false_iff_ne.2 (clock_ne hs hc)
    | _ => rfl
  | clock hc =>
    cases he with
    | string hs => exact beq_eq_false_iff_ne.2 (clock_ne hs hc).symm
    | clock => exact beq_self_eq_true _
    | _ => rfl
  | _ => cases he <;> rfl

theorem display_eq (hd : heap.Denotes clock v d) : heap.display v = .ok d.text := by
  cases hd with
  | nil | bool | number => rfl
  | string hs =>
    obtain ⟨text, bytes, hc, rfl⟩ := (hasContents_iff heap _ _).1 hs
    simp [display, object_of_cell? hc, bind, Except.bind, pure, Except.pure, Datum.text]
  | clock hc => simp [display, object_of_cell? hc, bind, Except.bind, pure, Except.pure, Datum.text]

end Denotes

end Heap

end LoxMachine
