/-!
# Overwriting in arrays

* `put xs i v` is `xs` with `v` at index `i`; nothing changes if there is no such index.

It is never inlined: the test of the index stays inside the call, so that an array which only the
structure around it refers to is overwritten in place.
-/

namespace LoxMachine

variable {α : Type}

/-- The array with `v` at index `i`, if there is such an index. -/
@[noinline] def put (xs : Array α) (i : Nat) (v : α) : Array α := xs.setIfInBounds i v

@[simp] theorem size_put (xs : Array α) (i : Nat) (v : α) : (put xs i v).size = xs.size := by
  simp [put]

theorem getElem?_put_self {xs : Array α} {i : Nat} (v : α) (h : i < xs.size) :
    (put xs i v)[i]? = some v := by
  simp [put, h]

theorem getElem?_put_ne (xs : Array α) {i j : Nat} (v : α) (h : i ≠ j) :
    (put xs i v)[j]? = xs[j]? := by
  simp [put, h]

theorem getElem?_put_eq_some {xs : Array α} {i j : Nat} {v w : α}
    (h : (put xs i v)[j]? = some w) : (j = i ∧ w = v) ∨ (j ≠ i ∧ xs[j]? = some w) := by
  by_cases hij : i = j
  · subst hij
    have hlt := (Array.getElem?_eq_some_iff.1 h).1
    rw [getElem?_put_self _ (by simpa using hlt)] at h
    exact Or.inl ⟨rfl, (Option.some.inj h).symm⟩
  · rw [getElem?_put_ne _ _ hij] at h
    exact Or.inr ⟨Ne.symm hij, h⟩

end LoxMachine
