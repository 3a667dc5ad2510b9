import LoxMachine.Proofs.Machine.Failures
import LoxMachine.Proofs.Runs.Instructions
import LoxMachine.Proofs.Runs.Methods

/-!
# Classes and failures

An instruction that makes or changes a class fails before it has done so, or with a class that nothing refers to.

* `Machine.Aloof m m'`: the objects are the same, or there is one more.
* `Faces.classless`: other instructions leave all classes as they are.
* `Faces.fails`: a class has the methods that it had when an instruction has failed.
-/

namespace LoxMachine

open Symbolic

variable {Q : FunctionKind → Nat → Code → Prop} {W : Machine → Closure → Sheet → Prop}
  {m₀ m m' : Machine} {f : Frame} {rest : List Frame} {c : Closure} {s : Sheet} {i : Symbolic.Instruction}
  {e : Failure} {x : Handle} {methods : Methods}

/-- The objects are the same, or there is one more. -/
inductive Machine.Aloof (m m' : Machine) : Prop
  | same (h : m'.heap = m.heap)
  | more {roots : List Handle} {o : Object} {x : Handle} (fresh : m.heap.contains x = false)
    (allocates : m.heap.Allocates roots o x m'.heap)

theorem Machine.Aloof.after {m₁ : Machine} (h : m.Untouched m₁) (h' : m₁.Aloof m') : m.Aloof m' := by
  cases h' with
  | same h' => exact .same (h'.trans h.heap)
  | more fresh allocates => exact .more (h.heap ▸ fresh) (h.heap ▸ allocates)

namespace Run

open Machine

variable {α : Type} {y : Run α}

/-- An action before anything is done. -/
theorem Along.aloof [Along Untouched y] (h : m₀.Untouched m) :
    Ends (fun e m' => Blames e ∨ m₀.Aloof m') y m fun _ m' => m₀.Untouched m' :=
  (Along.ends (R := Untouched)).weaken (fun _ _ he => .inr (.same (Chains.trans h he).heap))
    |>.mono fun _ _ he => Chains.trans h he

/-- An action that cannot fail. -/
theorem Blameless.aloof [hy : Blameless y] :
    Ends (fun e m' => Blames e ∨ m₀.Aloof m') y m fun _ _ => True := by
  unfold Ends
  cases h : y m with
  | ok a m' => trivial
  | error e m' =>
    refine .inl ?_
    rintro r rfl
    exact hy.never h

theorem makeClass_aloof (ht : m.heap.Tidy) :
    Ends (fun e m' => Blames e ∨ m.Aloof m') makeClass m fun _ _ => True := by
  have h : m.Untouched m := Chains.refl m
  unfold makeClass
  refine (Along.aloof h).bind fun name m₁ h => ?_
  refine .bind (Q := fun _ m' => m.Aloof m') (.modifyGet ?_) fun cls m₂ h₂ => ?_
  · have ht₁ : m₁.heap.Tidy := h.heap ▸ ht
    have ha := Heap.alloc_allocates ht₁ (.mk fun _ => m₁.roots) (.cls { name })
    exact Aloof.after h (.more (Heap.alloc_fresh ht₁ (.mk fun _ => m₁.roots) (.cls { name })) ha)
  · refine ((Along.ends (R := Untouched)).weaken fun _ _ he => .inr ?_).mono fun _ _ _ => trivial
    cases h₂ with
    | same h₂ => exact .same (he.heap.trans h₂)
    | more fresh allocates => exact .more fresh (he.heap ▸ allocates)

theorem inherit_aloof : Ends (fun e m' => Blames e ∨ m.Aloof m') inherit m fun _ _ => True := by
  have h : m.Untouched m := Chains.refl m
  unfold inherit
  exact (Along.aloof h).bind fun v m₁ h => (Along.aloof h).bind fun super m₂ h =>
    (Along.aloof h).bind fun v m₃ h => (Along.aloof h).bind fun sub m₄ h => Blameless.aloof

theorem method_aloof : Ends (fun e m' => Blames e ∨ m.Aloof m') method m fun _ _ => True := by
  have h : m.Untouched m := Chains.refl m
  unfold method
  exact (Along.aloof h).bind fun name m₁ h => (Along.aloof h).bind fun v m₂ h =>
    (Along.aloof h).bind fun c m₃ h => (Along.aloof h).bind fun cls m₄ h =>
    (Along.aloof h).bind fun _ m₅ h => (Along.aloof h).bind fun key m₆ h => Blameless.aloof

/-- **An instruction that makes or changes a class** has not done so where it fails. -/
theorem perform_aloof {op : Opcode} (hop : op = .cls ∨ op = .inherit ∨ op = .method) (ht : m.heap.Tidy) :
    Ends (fun e m' => Blames e ∨ m.Aloof m') (perform op) m fun _ _ => True := by
  rcases hop with rfl | rfl | rfl
  · exact (makeClass_aloof ht).bind fun _ _ _ => .pure trivial
  · exact inherit_aloof.bind fun _ _ _ => .pure trivial
  · exact method_aloof.bind fun _ _ _ => .pure trivial

end Run

namespace Machine

/-- Where the objects are the same but for a new one, classes have the methods that they had. -/
theorem Aloof.hasMethods (h : m.Aloof m') (hc : m.heap.contains x = true) (hx : m'.heap.kind? x = some .cls)
    (hmethods : m.heap.HasMethods x methods) : m'.heap.HasMethods x methods := by
  cases h with
  | same h => rwa [h]
  | @more roots o y fresh allocates =>
    have hne : x ≠ y := by
      rintro rfl
      exact Bool.false_ne_true (fresh.symm.trans hc)
    exact hmethods.retained (P := fun z _ => z ≠ y) (R := fun _ => True) (.allocates allocates (by simp)) hx hne trivial
      trivial

/-- Instructions that have nothing to do with classes leave them as they are. -/
theorem Faces.classless (h : m₀.Tracks Q W m) (hat : m₀.Faces Q W m f rest c s [i]) (hformed : i.Formed)
    (hclassless : Symbolic.Instruction.Classless i.opcode) :
    Run.Ends (fun _ m' => m.heap.Retains (fun _ k => k = .cls) (fun k => k = .string ∨ k = .closure) m'.heap)
      Run.execute m
      fun _ m' => m.heap.Retains (fun _ k => k = .cls) (fun k => k = .string ∨ k = .closure) m'.heap := by
  obtain ⟨g, mi, hg, -, hi, hspells⟩ := hat.reads h hformed
  obtain ⟨hcls, hinherit, hmethod⟩ := hclassless
  rw [← hspells.opcode] at hcls hinherit hmethod
  refine Run.execute_retains h.orderly.sane hat.frames hg hi ?_ ?_
  · rintro k rfl
    revert hcls hinherit hmethod
    cases mi.op <;> decide
  · rintro k (rfl | rfl) <;> cases mi.op <;> decide

/-- **A class has the methods that it had** when an instruction has failed. -/
theorem Faces.fails (h : m₀.Tracks Q W m) (hat : m₀.Faces Q W m f rest c s [i]) (hformed : i.Formed)
    (hm : m.step = .error e m') (hc : m.heap.contains x = true) (hx : m'.heap.kind? x = some .cls)
    (hmethods : m.heap.HasMethods x methods) : m'.heap.HasMethods x methods := by
  by_cases hclassless : Symbolic.Instruction.Classless i.opcode
  · exact hmethods.retained ((hat.classless h hformed hclassless).of_error hm) hx rfl (.inl rfl) (.inr rfl)
  obtain ⟨g, mi, heap, -, -, -, hspells, hcells, ho₁, -, hrun⟩ := hat.performs h hformed
  have hop : mi.op = .cls ∨ mi.op = .inherit ∨ mi.op = .method := by
    rw [hspells.opcode]
    by_contra hnot
    simp only [not_or] at hnot
    exact hclassless hnot
  obtain ⟨⟨r, rfl, huser⟩, -⟩ := (Run.execute_meets h.stable).of_error hm
  rw [hrun] at hm
  rcases (Run.perform_aloof hop ho₁.sane.heap.tidy).of_error hm with hblames | haloof
  · rw [hblames r rfl] at huser
    cases huser
  · refine haloof.hasMethods ?_ hx (hmethods.retained (P := fun _ _ => True) (R := fun _ => True)
      (.of_cells ho₁.sane.heap.tidy hcells) ((Heap.kind?_congr (hcells x)).trans hmethods.kind?) trivial trivial trivial)
    rwa [Heap.contains, hcells]

end Machine

end LoxMachine
