/-!
# Words

Sizes and counts are 64-bit words: one that does not fit wraps around.

* `wrap` is the word of a natural number.
* `wrap_of_lt` says that a number which fits is not changed.
-/

namespace LoxMachine

/-- How many words there are. -/
def wordCount : Nat := Nat.pow 2 64

/-- A size or a count as a word. -/
def wrap (n : Nat) : Nat := n % wordCount

theorem wrap_of_lt {n : Nat} (h : n < wordCount) : wrap n = n := Nat.mod_eq_of_lt h

end LoxMachine
