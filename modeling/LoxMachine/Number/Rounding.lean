/-!
# Rounding a quotient of naturals

* `roundDiv num den` is the natural number nearest to `num / den`, a tie going to the even
  neighbour. Every decimal text and every binary literal of this library is rounded by it.
-/

namespace LoxMachine

/-- The natural number nearest to `num / den`; a tie goes to the even neighbour. -/
def roundDiv (num den : Nat) : Nat :=
  let q := num / den
  let r := num % den
  if 2 * r < den then q
  else if den < 2 * r then q + 1
  else if q % 2 = 0 then q
  else q + 1

end LoxMachine
