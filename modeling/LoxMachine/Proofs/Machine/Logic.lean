import LoxMachine.Machine.Basic

/-!
# Reasoning about actions

* `Run.Ends E x m Q`: started in the state `m`, the action `x` ends with `Q`, or fails with `E`.
* The laws of `Ends` follow the ways in which actions are put together; what an action does is shown
  by going through its text with them.
-/

namespace LoxMachine

namespace Run

variable {α β : Type} {E : Failure → Machine → Prop} {x : Run α} {m : Machine}
  {Q Q' : α → Machine → Prop} {R : β → Machine → Prop}

theorem bind_of_ok {g : α → Run β} {a : α} {m' : Machine} (h : x m = .ok a m') : (x >>= g) m = g a m' := by
  simp [Bind.bind, EStateM.bind, h]

theorem bind_of_error {g : α → Run β} {e : Failure} {m' : Machine} (h : x m = .error e m') : (x >>= g) m = .error e m' := by
  simp [Bind.bind, EStateM.bind, h]

/-- The action ends with `Q`, or fails with `E`. -/
def Ends (E : Failure → Machine → Prop) (x : Run α) (m : Machine) (Q : α → Machine → Prop) : Prop :=
  match x m with
  | .ok a m' => Q a m'
  | .error e m' => E e m'

namespace Ends

theorem mono (h : Ends E x m Q) (hQ : ∀ a m', Q a m' → Q' a m') : Ends E x m Q' := by
  unfold Ends at h ⊢
  cases hx : x m with
  | ok a m' =>
    rw [hx] at h
    exact hQ a m' h
  | error e m' =>
    rw [hx] at h
    exact h

theorem and {E' : Failure → Machine → Prop} (h : Ends E x m Q) (h' : Ends E' x m Q') :
    Ends (fun e m' => E e m' ∧ E' e m') x m fun a m' => Q a m' ∧ Q' a m' := by
  unfold Ends at h h' ⊢
  cases hx : x m with
  | ok a m' =>
    rw [hx] at h h'
    exact ⟨h, h'⟩
  | error e m' =>
    rw [hx] at h h'
    exact ⟨h, h'⟩

/-- Less may be said of the failures. -/
theorem weaken {E' : Failure → Machine → Prop} (h : Ends E x m Q) (hE : ∀ e m', E e m' → E' e m') :
    Ends E' x m Q := by
  unfold Ends at h ⊢
  cases hx : x m with
  | ok a m' =>
    rw [hx] at h
    exact h
  | error e m' =>
    rw [hx] at h
    exact hE e m' h

theorem of_ok {a : α} {m' : Machine} (h : Ends E x m Q) (hx : x m = .ok a m') : Q a m' := by
  unfold Ends at h
  rw [hx] at h
  exact h

theorem of_error {e : Failure} {m' : Machine} (h : Ends E x m Q) (hx : x m = .error e m') : E e m' := by
  unfold Ends at h
  rw [hx] at h
  exact h

/-- An action that does not fail. -/
theorem ok (h : Ends (fun _ _ => False) x m Q) : ∃ a m', x m = .ok a m' ∧ Q a m' := by
  unfold Ends at h
  cases hx : x m with
  | ok a m' =>
    rw [hx] at h
    exact ⟨a, m', rfl, h⟩
  | error e m' =>
    rw [hx] at h
    exact h.elim

theorem bind {f : α → Run β} (h : Ends E x m Q) (hf : ∀ a m', Q a m' → Ends E (f a) m' R) :
    Ends E (x >>= f) m R := by
  unfold Ends at h
  cases hx : x m with
  | ok a m' =>
    rw [hx] at h
    have hbind : (x >>= f) m = f a m' := by simp [Bind.bind, EStateM.bind, hx]
    unfold Ends
    rw [hbind]
    exact hf a m' h
  | error e m' =>
    rw [hx] at h
    have hbind : (x >>= f) m = .error e m' := by simp [Bind.bind, EStateM.bind, hx]
    unfold Ends
    rw [hbind]
    exact h

theorem pure {a : α} (h : Q a m) : Ends E (pure a) m Q := h

/-- Reading the state. -/
theorem get {f : Machine → Run β} (h : Ends E (f m) m R) : Ends E (MonadState.get >>= f) m R := h

/-- Changing the state. -/
theorem modify {f : Machine → Machine} {Q : Unit → Machine → Prop} (h : Q () (f m)) :
    Ends E (modify f) m Q := h

theorem modifyGet {f : Machine → α × Machine} (h : Q (f m).1 (f m).2) :
    Ends E (modifyGet f) m Q := h

theorem fail {r : RuntimeError} (h : E (.error r) m) : Ends E (Run.fail r : Run α) m Q := h

/-- Nothing has to be shown of what follows an error. -/
theorem fail_bind {r : RuntimeError} {f : α → Run β} (h : E (.error r) m) :
    Ends E ((Run.fail r : Run α) >>= f) m R := h

theorem ite {p : Prop} [Decidable p] {y : Run α} (hx : p → Ends E x m Q)
    (hy : ¬p → Ends E y m Q) : Ends E (if p then x else y) m Q := by
  by_cases hp : p
  · rw [if_pos hp]
    exact hx hp
  · rw [if_neg hp]
    exact hy hp

/-- A choice before something else. -/
theorem ite_bind {p : Prop} [Decidable p] {y : Run α} {f : α → Run β}
    (h : Ends E (if p then x else y) m Q) (hf : ∀ a m', Q a m' → Ends E (f a) m' R) :
    Ends E (if p then x >>= f else y >>= f) m R := by
  by_cases hp : p
  · rw [if_pos hp] at h ⊢
    exact h.bind hf
  · rw [if_neg hp] at h ⊢
    exact h.bind hf

/-- Reading the heap. -/
theorem look {f : Heap → Except Fault α} {a : α} (ha : f m.heap = .ok a) (h : Q a m) :
    Ends E (look f) m Q := by
  unfold Run.look
  refine Ends.get ?_
  rw [ha]
  exact h

theorem look_bind {f : Heap → Except Fault α} {a : α} {g : α → Run β} (ha : f m.heap = .ok a)
    (h : Ends E (g a) m R) : Ends E (Run.look f >>= g) m R :=
  Ends.bind (Q := fun b m' => b = a ∧ m' = m) (.look ha ⟨rfl, rfl⟩) fun b m' hb => by
    rw [hb.1, hb.2]
    exact h

end Ends

end Run

end LoxMachine
