import LoxMachine.Proofs.Machine.Digging

/-!
# The stack as a list

* `Machine.holding`: a machine with given values on its stack, from its bottom.
* `pop_of`, `push_of`, `peek_of`, `poke_of`: what the actions on the stack do to such a machine.
* `call_eq`: what calling a closure does.
-/

namespace LoxMachine

namespace Run

/-! ## Actions in a row -/

section Steps

variable {α β : Type} {x y : Run α} {g : α → Run β} {m m' : Machine}

/-- Only what an action does here matters for what follows. -/
theorem bind_congr_at (h : x m = y m') : (x >>= g) m = (y >>= g) m' := by
  simp only [Bind.bind, EStateM.bind, h]

end Steps

end Run

namespace Machine

/-- The machine with other values on its stack. -/
def holding (m : Machine) (values : List Value) : Machine := { m with stack := values.toArray }

variable {m : Machine} {values values' : List Value}

@[simp] theorem holding_stack : (m.holding values).stack = values.toArray := rfl

theorem holding_self (h : m.stack = values.toArray) : m.holding values = m := by
  cases m
  cases h
  rfl

end Machine

namespace Run

section Holding

variable {m : Machine} {low args : List Value} {v : Value}

theorem pop_of : pop (m.holding (low ++ [v])) = .ok v (m.holding low) := by
  rw [Cellular.pop_eq]
  simp [Machine.holding]

theorem push_of (h : low.length < maxStack) :
    push v (m.holding low) = .ok () (m.holding (low ++ [v])) := by
  rw [Cellular.push_eq, if_neg (by simpa using h)]
  simp [Machine.holding]

theorem below_of : below args.length (m.holding (low ++ v :: args)) =
    .ok low.length (m.holding (low ++ v :: args)) := by
  have hsize : (m.holding (low ++ v :: args)).stack.size = low.length + args.length + 1 := by
    simp
    omega
  have hindex : (m.holding (low ++ v :: args)).stack.size - 1 - args.length = low.length := by omega
  unfold below
  rw [get_bind, if_pos (by omega), hindex]
  rfl

theorem slot_of : slot low.length (m.holding (low ++ v :: args)) =
    .ok v (m.holding (low ++ v :: args)) := by
  rw [Cellular.slot_eq]
  simp

theorem peek_of : peek args.length (m.holding (low ++ v :: args)) =
    .ok v (m.holding (low ++ v :: args)) := by
  unfold peek
  rw [bind_of_ok below_of, slot_of]

theorem peek_top : peek 0 (m.holding (low ++ [v])) = .ok v (m.holding (low ++ [v])) :=
  @peek_of m low [] v

theorem poke_of (w : Value) : poke args.length w (m.holding (low ++ v :: args)) =
    .ok () (m.holding (low ++ w :: args)) := by
  unfold poke
  rw [bind_of_ok below_of, Cellular.setSlot_eq, if_pos (by simp)]
  simp [Machine.holding, put]

end Holding

/-! ## Closures -/

theorem call_eq {m : Machine} {x : Handle} {c : Closure} {f : Function} {bytes bytes' : Nat}
    (hc : m.heap.cell? x = some ⟨.closure c, bytes⟩)
    (hf : m.heap.cell? c.function = some ⟨.function f, bytes'⟩) (count : Nat) : call x count m =
      if count ≠ f.arity then .error (.error (.arityMismatch f.arity count)) m
      else if maxFrames ≤ m.frames.length then .error (.error .stackOverflow) m
      else if m.stack.size < wrap (count + 1) then .error (.error .stackUnderflow) m
      else .ok () { m with
        frames := { closure := x, function := c.function,
                    base := m.stack.size - wrap (count + 1) } :: m.frames } := by
  unfold call
  rw [look_bind_ok (Heap.closure_of_cell? hc),
    look_bind_ok (Heap.function_eq_ok_iff.2 ⟨bytes', hf⟩)]
  by_cases harity : count ≠ f.arity
  · rw [if_pos harity, if_pos harity]
    rfl
  rw [if_neg harity, if_neg harity]
  change (if maxFrames ≤ m.frames.length then _ else _ : Run Unit) m = _
  by_cases hframes : maxFrames ≤ m.frames.length
  · rw [if_pos hframes, if_pos hframes]
    rfl
  rw [if_neg hframes, if_neg hframes]
  by_cases hsize : m.stack.size < wrap (count + 1)
  · rw [if_pos hsize, if_pos hsize]
    rfl
  · rw [if_neg hsize, if_neg hsize]
    rfl

end Run

end LoxMachine
