import LoxMachine.Number.Rounding

/-!
# Numbers

A number of the language is an IEEE 754 double, kept as its 64-bit word so that every bit
pattern, those of the NaNs included, is carried unchanged.

* `Number.magnitude` is the exact value of a finite number, as a ratio of naturals.
* `Number.ofRatio` is the double nearest to a ratio, a tie going to the even word.
* `Number.add`, `sub`, `mul`, `div` and `neg` are the arithmetic of the machine; `beq` and `lt`
  compare as IEEE 754 does, so a NaN equals nothing and the two zeros are equal.
-/

namespace LoxMachine

/-- An IEEE 754 double, as its word. -/
structure Number where
  bits : UInt64
  deriving DecidableEq, Inhabited, Repr

namespace Number

/-! ## The fields of the word -/

/-- The eleven bits of the exponent. -/
def exponentField (n : Number) : Nat := ((n.bits >>> 52) &&& 0x7ff).toNat

/-- The fifty-two bits of the fraction. -/
def fractionField (n : Number) : Nat := (n.bits &&& 0xfffffffffffff).toNat

/-- Whether the sign bit is set. -/
def isNegative (n : Number) : Bool := n.bits >>> 63 == 1

def isNaN (n : Number) : Bool := n.exponentField == 0x7ff && n.fractionField != 0

def isInfinite (n : Number) : Bool := n.exponentField == 0x7ff && n.fractionField == 0

def isZero (n : Number) : Bool := n.exponentField == 0 && n.fractionField == 0

/-! ## Exact values -/

/-- A nonnegative rational number. -/
structure Ratio where
  num : Nat
  den : Nat
  deriving DecidableEq, Repr

/-- The absolute value of a finite number. A word with exponent field `0` counts units of
`2 ^ -1074`; any other has a leading one above its fraction. -/
def magnitude (n : Number) : Ratio :=
  let significand :=
    if n.exponentField = 0 then n.fractionField else n.fractionField + Nat.pow 2 52
  let exponent := max n.exponentField 1
  if 1075 ≤ exponent then ⟨significand * Nat.pow 2 (exponent - 1075), 1⟩
  else ⟨significand, Nat.pow 2 (1075 - exponent)⟩

/-- The word of positive infinity. -/
def infinityBits : Nat := 0x7ff0000000000000

/-- How far, in binary places above `2 ^ -1074`, the last place of the double nearest to
`r` lies: its significand has 53 bits, and no double is finer than `2 ^ -1074`. -/
def lastPlace (r : Ratio) : Nat :=
  let up := r.num.log2 + 1074
  let down := r.den.log2
  -- the quotient lies between `2 ^ (up - down - 1)` and `2 ^ (up - down + 1)` of those units
  let top :=
    if r.num * Nat.pow 2 down < r.den * Nat.pow 2 r.num.log2 then up - 1 - down else up - down
  top - 52

/-- The double nearest to a ratio, a tie going to the even word and a ratio past the largest
double to infinity. -/
def ofRatio (r : Ratio) : Number :=
  if r.num = 0 then ⟨0⟩
  else
    let place := lastPlace r
    let significand := roundDiv (r.num * Nat.pow 2 1074) (r.den * Nat.pow 2 place)
    ⟨UInt64.ofNat (min infinityBits (place * Nat.pow 2 52 + significand))⟩

/-- The double nearest to `digits / 10 ^ places`. -/
def ofDecimal (digits places : Nat) : Number :=
  ofRatio ⟨digits, Nat.pow 10 places⟩

/-! ## Arithmetic and comparison -/

/-- The number with its sign bit flipped, NaNs included. -/
def neg (n : Number) : Number := ⟨n.bits ^^^ 0x8000000000000000⟩

/-- The result of an operation without a numeric value. -/
def invalid : Number := ⟨0xfff8000000000000⟩

/-- A NaN that is passed on through arithmetic: its quiet bit is set. -/
def quiet (n : Number) : Number := ⟨n.bits ||| 0x0008000000000000⟩

/-- Lift an operation on doubles to words: a NaN operand is passed on, the first one winning, and
a NaN made by the operation itself is `invalid`. -/
@[inline] def lift₂ (op : Float → Float → Float) (a b : Number) : Number :=
  let r := op (Float.ofBits a.bits) (Float.ofBits b.bits)
  if r.isNaN then
    if a.isNaN then a.quiet else if b.isNaN then b.quiet else invalid
  else ⟨r.toBits⟩

def add (a b : Number) : Number := lift₂ (· + ·) a b

def sub (a b : Number) : Number := lift₂ (· - ·) a b

def mul (a b : Number) : Number := lift₂ (· * ·) a b

def div (a b : Number) : Number := lift₂ (· / ·) a b

/-- Equality of the values: a NaN equals nothing, and the two zeros are equal. -/
def beq (a b : Number) : Bool := Float.ofBits a.bits == Float.ofBits b.bits

/-- Whether `a` is below `b`; false when either is a NaN. -/
def lt (a b : Number) : Bool := decide (Float.ofBits a.bits < Float.ofBits b.bits)

end Number

end LoxMachine
