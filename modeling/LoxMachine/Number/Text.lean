import LoxMachine.Number

/-!
# Decimal text of numbers

Numbers are printed with six significant digits, without trailing zeros, and with an exponent
when the decimal exponent of the rounded value is below `-4` or at least `6`.

* `Number.sixDigits` rounds an exact value to six significant digits, and `Ratio.atPlaces` to a number of
  decimal places.
* `Ratio.text` is the printed form of a positive ratio, and `Number.text` that of a number.
* `Number.ofLiteral?` reads the number literals of the language, `digits` or `digits.digits`.
-/

namespace LoxMachine

namespace Number

/-! ## Rounding to six digits -/

/-- A rounded value: `digits * 10 ^ (exponent - 5)`, with six digits. -/
structure Rounded where
  digits : Nat
  exponent : Int
  deriving DecidableEq, Repr

/-- How many decimal digits a natural number has. -/
def decimalLength (n : Nat) : Nat := (Nat.toDigits 10 n).length

/-- The `x` with `10 ^ x ≤ r < 10 ^ (x + 1)`, for a positive ratio. -/
def decimalExponent (r : Ratio) : Int :=
  if r.den ≤ r.num then (decimalLength (r.num / r.den) : Int) - 1
  else -(decimalLength ((r.den + r.num - 1) / r.num - 1) : Int)

/-- A positive ratio at six significant digits. Rounding up to the next power of ten moves the
exponent. -/
def sixDigits (r : Ratio) : Rounded :=
  let x := decimalExponent r
  let digits :=
    if x ≤ 5 then roundDiv (r.num * Nat.pow 10 (5 - x).toNat) r.den
    else roundDiv r.num (r.den * Nat.pow 10 (x - 5).toNat)
  if digits = Nat.pow 10 6 then ⟨Nat.pow 10 5, x + 1⟩ else ⟨digits, x⟩

/-- A ratio at a number of decimal places, in units of the last one. -/
def Ratio.atPlaces (r : Ratio) (places : Nat) : Nat := roundDiv (r.num * Nat.pow 10 places) r.den

/-! ## Writing -/

/-- Digits of `n`, filled up with zeros on the left. -/
def padded (width n : Nat) : List Char :=
  let digits := Nat.toDigits 10 n
  List.replicate (width - digits.length) '0' ++ digits

/-- `n / 10 ^ places` in positional notation, with all its places. -/
def positional (n places : Nat) : List Char :=
  Nat.toDigits 10 (n / Nat.pow 10 places) ++
    if places = 0 then [] else '.' :: padded places (n % Nat.pow 10 places)

/-- A text without the characters `c` at its end. -/
def trimEnd (c : Char) (text : List Char) : List Char := (text.reverse.dropWhile (· == c)).reverse

/-- A text without the zeros that end its fraction, and without the point if no fraction is left. -/
def trimFraction (text : List Char) : List Char :=
  if text.contains '.' then trimEnd '.' (trimEnd '0' text) else text

/-- The exponents written positionally: those from `-4` to `5`. -/
def isPositional (exponent : Int) : Bool := -4 ≤ exponent && exponent < 6

/-- The text of a positive ratio at six significant digits. The exponent of the rounded value tells the
notation; in positional notation the ratio is rounded to the places that leave it six digits. An exponent
that is written has its sign and at least two digits. -/
def Ratio.text (r : Ratio) : List Char :=
  let rounded := sixDigits r
  if isPositional rounded.exponent then
    let places := (5 - rounded.exponent).toNat
    trimFraction (positional (r.atPlaces places) places)
  else
    let sign := if rounded.exponent < 0 then '-' else '+'
    trimFraction (positional rounded.digits 5) ++ 'e' :: sign :: padded 2 rounded.exponent.natAbs

/-- The printed form of a number. -/
def text (n : Number) : String :=
  let sign := if n.isNegative then "-" else ""
  if n.isNaN then sign ++ "nan"
  else if n.isInfinite then sign ++ "inf"
  else if n.isZero then sign ++ "0"
  else sign ++ String.ofList n.magnitude.text

/-! ## Reading -/

/-- The natural number that a string of decimal digits spells. -/
def naturalOfDigits (digits : List Char) : Nat :=
  digits.foldl (fun n c => n * 10 + (c.toNat - '0'.toNat)) 0

/-- The number that a literal `digits` or `digits.digits` denotes. -/
def ofLiteral? (literal : String) : Option Number :=
  let whole := literal.toList.takeWhile Char.isDigit
  match literal.toList.dropWhile Char.isDigit with
  | [] => if whole.isEmpty then none else some (ofDecimal (naturalOfDigits whole) 0)
  | '.' :: fraction =>
    if whole.isEmpty || fraction.isEmpty || !fraction.all Char.isDigit then none
    else some (ofDecimal (naturalOfDigits (whole ++ fraction)) fraction.length)
  | _ => none

end Number

end LoxMachine
