import Mathlib.Data.List.TakeWhile
import Mathlib.Data.Nat.Cast.Field
import LoxMachine.Proofs.Number.Rounding

/-!
# The text of a number

* `Decimal` is a decimal as it is written, `Decimal.text` its spelling and `Decimal.value` what it denotes. A text
  spells at most one decimal (`Decimal.text_injective`).
* `Number.value` is the value of a finite number.
* `Number.Printed n r d`: the text of `n` spells the decimal `d`, which is `n` at six significant digits, in the
  notation that the exponent of the rounded value asks for.
* `text_printed`: so is every number printed that is finite and not zero.
-/

namespace LoxMachine

/-! ## Digits -/

section Digits

variable {c : Char} {ds es rest rest' : List Char}

/-- Digits end where no digit follows. -/
theorem digits_append_inj (hds : ∀ d ∈ ds, d.isDigit = true) (hes : ∀ d ∈ es, d.isDigit = true)
    (hrest : ∀ c ∈ rest.head?, c.isDigit = false) (hrest' : ∀ c ∈ rest'.head?, c.isDigit = false)
    (h : ds ++ rest = es ++ rest') : ds = es ∧ rest = rest' := by
  have hstop {more : List Char} (hmore : ∀ c ∈ more.head?, c.isDigit = false) :
      more.takeWhile Char.isDigit = [] := by
    cases more with
    | nil => rfl
    | cons c more => simp [hmore c rfl]
  have htake := congrArg (List.takeWhile Char.isDigit) h
  rw [List.takeWhile_append_of_pos hds, List.takeWhile_append_of_pos hes, hstop hrest, hstop hrest',
    List.append_nil, List.append_nil] at htake
  subst htake
  exact ⟨rfl, List.append_cancel_left h⟩

namespace Number

theorem isDigit_padded (width n : Nat) : ∀ d ∈ padded width n, d.isDigit = true := by
  intro d hd
  rcases List.mem_append.1 hd with hzero | hdigit
  · rw [List.eq_of_mem_replicate hzero]
    rfl
  · exact Nat.isDigit_of_mem_toDigits (by norm_num) (by norm_num) hdigit

theorem ofDigitChars_padded (width n : Nat) : Nat.ofDigitChars 10 (padded width n) 0 = n := by
  rw [padded, Nat.ofDigitChars_append, Nat.ofDigitChars_replicate_zero, Nat.mul_zero,
    Nat.ofDigitChars_ten_toDigits]

theorem le_length_padded (width n : Nat) : width ≤ (padded width n).length := by
  simp only [padded, List.length_append, List.length_replicate]
  omega

theorem length_padded {width n : Nat} (hwidth : 0 < width) (hn : n < 10 ^ width) :
    (padded width n).length = width := by
  have hle := (Nat.length_toDigits_le_iff (by norm_num) hwidth).2 hn
  simp only [padded, List.length_append, List.length_replicate]
  omega

/-! ## Trimming -/

theorem trimEnd_append_replicate (h : ds.getLast? ≠ some c) (k : Nat) :
    trimEnd c (ds ++ List.replicate k c) = ds := by
  have hdrop : ds.reverse.dropWhile (· == c) = ds.reverse := by
    cases hreverse : ds.reverse with
    | nil => rfl
    | cons d ds' =>
      have hd : d ≠ c := by
        rintro rfl
        rw [List.getLast?_eq_head?_reverse, hreverse] at h
        exact h rfl
      simp [hd]
  rw [trimEnd, List.reverse_append, List.reverse_replicate, List.dropWhile_append_of_pos (by simp), hdrop,
    List.reverse_reverse]

/-- What is trimmed off is the character alone. -/
theorem exists_trimEnd (c : Char) (ds : List Char) :
    ∃ k, ds = trimEnd c ds ++ List.replicate k c ∧ (trimEnd c ds).getLast? ≠ some c := by
  have hsplit := List.takeWhile_append_dropWhile (p := (· == c)) (l := ds.reverse)
  have hzeros : ds.reverse.takeWhile (· == c) = List.replicate (ds.reverse.takeWhile (· == c)).length c :=
    List.eq_replicate_of_mem fun d hd => by simpa using List.mem_takeWhile_imp hd
  refine ⟨(ds.reverse.takeWhile (· == c)).length, ?_, ?_⟩
  · have hreverse := congrArg List.reverse hsplit
    rw [hzeros, List.reverse_append, List.reverse_reverse, List.reverse_replicate] at hreverse
    exact hreverse.symm
  · rw [trimEnd, List.getLast?_reverse]
    have hhead := List.head?_dropWhile_not (· == c) ds.reverse
    intro heq
    rw [heq] at hhead
    simp at hhead

end Number

end Digits

/-! ## Decimals -/

/-- A decimal as it is written: digits, perhaps a point with more digits, perhaps an exponent. -/
structure Decimal where
  negative : Bool
  whole : List Char
  fraction : List Char
  /-- The sign of the exponent, which is always written, and its digits. -/
  exponent : Option (Bool × List Char)
  whole_ne_nil : whole ≠ []
  whole_digits : ∀ c ∈ whole, c.isDigit = true
  fraction_digits : ∀ c ∈ fraction, c.isDigit = true
  exponent_digits : ∀ e ∈ exponent, e.2 ≠ [] ∧ ∀ c ∈ e.2, c.isDigit = true

namespace Decimal

/-- A fraction with its point; there is no point without a fraction. -/
def point : List Char → List Char
  | [] => []
  | fraction => '.' :: fraction

def mark : Option (Bool × List Char) → List Char
  | none => []
  | some (negative, digits) => 'e' :: (if negative then '-' else '+') :: digits

/-- How a decimal is spelled. -/
def text (d : Decimal) : List Char :=
  (if d.negative then ['-'] else []) ++ (d.whole ++ (point d.fraction ++ mark d.exponent))

/-- The power of ten that an exponent stands for. -/
def power : Option (Bool × List Char) → ℤ
  | none => 0
  | some (negative, digits) => (if negative then -1 else 1) * Nat.ofDigitChars 10 digits 0

/-- What a decimal denotes. -/
def value (d : Decimal) : ℚ :=
  (if d.negative then -1 else 1) * Nat.ofDigitChars 10 (d.whole ++ d.fraction) 0 *
    10 ^ (power d.exponent - d.fraction.length)

theorem head_mark {e : Option (Bool × List Char)} : ∀ c ∈ (mark e).head?, c = 'e' := by
  rcases e with - | ⟨negative, digits⟩
  · exact nofun
  · rintro c ⟨⟩
    rfl

theorem mark_inj {e f : Option (Bool × List Char)} (h : mark e = mark f) : e = f := by
  rcases e with - | ⟨negative, digits⟩ <;> rcases f with - | ⟨negative', digits'⟩
  · rfl
  · exact nomatch h
  · exact nomatch h
  · obtain ⟨hsign, rfl⟩ := List.cons.inj (List.cons.inj h).2
    cases negative <;> cases negative' <;> first | rfl | exact absurd hsign (by decide)

theorem head_point {fraction : List Char} {exponent : Option (Bool × List Char)} :
    ∀ c ∈ (point fraction ++ mark exponent).head?, c = '.' ∨ c = 'e' := by
  cases fraction with
  | nil => exact fun c hc => .inr (head_mark c hc)
  | cons d fraction =>
    rintro c ⟨⟩
    exact .inl rfl

theorem point_inj {f f' : List Char} {e e' : Option (Bool × List Char)} (hf : ∀ c ∈ f, c.isDigit = true)
    (hf' : ∀ c ∈ f', c.isDigit = true) (h : point f ++ mark e = point f' ++ mark e') : f = f' ∧ e = e' := by
  have hmark {e : Option (Bool × List Char)} : ∀ c ∈ (mark e).head?, c.isDigit = false := by
    intro c hc
    rw [head_mark c hc]
    rfl
  have hpoint {c : Char} {f : List Char} {e e' : Option (Bool × List Char)} :
      mark e ≠ point (c :: f) ++ mark e' := fun heq =>
    absurd (head_mark (e := e) '.' (by rw [heq]; rfl)) (by decide)
  cases f with
  | nil =>
    cases f' with
    | nil => exact ⟨rfl, mark_inj h⟩
    | cons => exact absurd h hpoint
  | cons =>
    cases f' with
    | nil => exact absurd h.symm hpoint
    | cons =>
      obtain ⟨hdigits, hmarks⟩ := digits_append_inj hf hf' hmark hmark (List.cons.inj h).2
      exact ⟨hdigits, mark_inj hmarks⟩

/-- **A text spells at most one decimal.** -/
theorem text_injective {d e : Decimal} (h : d.text = e.text) : d = e := by
  obtain ⟨negative, whole, fraction, exponent, hne, hwhole, hfraction, hexponent⟩ := d
  obtain ⟨negative', whole', fraction', exponent', hne', hwhole', hfraction', hexponent'⟩ := e
  have hstop {f : List Char} {e : Option (Bool × List Char)} :
      ∀ c ∈ (point f ++ mark e).head?, c.isDigit = false := by
    intro c hc
    rcases head_point c hc with rfl | rfl <;> rfl
  have hsign : negative = negative' ∧
      whole ++ (point fraction ++ mark exponent) = whole' ++ (point fraction' ++ mark exponent') := by
    obtain ⟨c, whole, rfl⟩ := List.exists_cons_of_ne_nil hne
    obtain ⟨c', whole', rfl⟩ := List.exists_cons_of_ne_nil hne'
    have hminus {ds : List Char} (hds : ∀ d ∈ ds, d.isDigit = true) : '-' ∉ ds :=
      fun hmem => absurd (hds '-' hmem) (by decide)
    cases negative <;> cases negative'
    · exact ⟨rfl, h⟩
    · exact absurd ((List.cons.inj h).1 ▸ List.mem_cons_self) (hminus hwhole)
    · exact absurd ((List.cons.inj h).1 ▸ List.mem_cons_self) (hminus hwhole')
    · exact ⟨rfl, (List.cons.inj h).2⟩
  obtain ⟨rfl, htext⟩ := hsign
  obtain ⟨rfl, hrest⟩ := digits_append_inj hwhole hwhole' hstop hstop htext
  obtain ⟨rfl, rfl⟩ := point_inj hfraction hfraction' hrest
  rfl

end Decimal

namespace Number

/-! ## Positional notation -/

/-- The fraction of `n / 10 ^ places` without zeros at its end. -/
def fractionOf (n places : Nat) : List Char := trimEnd '0' (padded places (n % 10 ^ places))

theorem fractionOf_zero (n : Nat) : fractionOf n 0 = [] := by
  simp [fractionOf, padded, trimEnd, Nat.mod_one]

theorem isDigit_fractionOf (n places : Nat) : ∀ c ∈ fractionOf n places, c.isDigit = true := by
  intro c hc
  obtain ⟨k, hk, -⟩ := exists_trimEnd '0' (padded places (n % 10 ^ places))
  exact isDigit_padded places _ c (hk ▸ List.mem_append_left _ hc)

theorem isDigit_toDigits (n : Nat) : ∀ c ∈ Nat.toDigits 10 n, c.isDigit = true := fun _ hc =>
  Nat.isDigit_of_mem_toDigits (by norm_num) (by norm_num) hc

/-- **Positional notation**, without zeros at the end of the fraction and without a point after which nothing
comes. -/
theorem trimFraction_positional (n places : Nat) : trimFraction (positional n places) =
    Nat.toDigits 10 (n / 10 ^ places) ++ Decimal.point (fractionOf n places) := by
  set whole := Nat.toDigits 10 (n / 10 ^ places) with hwhole
  have hpoint {ds : List Char} (hds : ∀ c ∈ ds, c.isDigit = true) : '.' ∉ ds := fun hmem =>
    absurd (hds '.' hmem) (by decide)
  have hpositional : positional n places =
      whole ++ if places = 0 then [] else '.' :: padded places (n % 10 ^ places) := rfl
  rw [hpositional, trimFraction]
  by_cases hplaces : places = 0
  · subst hplaces
    rw [if_pos rfl, List.append_nil, fractionOf_zero, Decimal.point, List.append_nil,
      if_neg (by simpa using hpoint (isDigit_toDigits _))]
  · obtain ⟨k, hk, hlast⟩ := exists_trimEnd '0' (padded places (n % 10 ^ places))
    have hdigits := isDigit_fractionOf n places
    change _ = fractionOf n places ++ _ at hk
    change (fractionOf n places).getLast? ≠ some '0' at hlast
    rw [if_neg hplaces, if_pos (by simp), hk, ← List.cons_append, ← List.append_assoc]
    cases hfraction : fractionOf n places with
    | nil =>
      rw [trimEnd_append_replicate (by simp), Decimal.point, List.append_nil]
      refine trimEnd_append_replicate (fun hdot => ?_) 1
      exact hpoint (isDigit_toDigits _) (List.mem_of_getLast? hdot)
    | cons c fraction =>
      rw [hfraction] at hlast hdigits
      have hend : (whole ++ '.' :: c :: fraction).getLast? = (c :: fraction).getLast? := by
        rw [List.getLast?_append_of_ne_nil _ (List.cons_ne_nil _ _), List.getLast?_cons_cons]
      rw [trimEnd_append_replicate (hend ▸ hlast)]
      have hdot : (whole ++ '.' :: c :: fraction).getLast? ≠ some '.' := fun hdot =>
        hpoint hdigits (List.mem_of_getLast? (hend ▸ hdot))
      have htrim := trimEnd_append_replicate hdot 0
      rwa [List.replicate_zero, List.append_nil] at htrim

/-- The zeros that are left out count for the places that are left out. -/
theorem ofDigitChars_positional (n places : Nat) : ∃ k, (fractionOf n places).length + k = places ∧
    Nat.ofDigitChars 10 (Nat.toDigits 10 (n / 10 ^ places) ++ fractionOf n places) 0 * 10 ^ k = n := by
  by_cases hplaces : places = 0
  · subst hplaces
    refine ⟨0, by simp [fractionOf_zero], ?_⟩
    rw [fractionOf_zero, List.append_nil, Nat.ofDigitChars_ten_toDigits, pow_zero, Nat.div_one, mul_one]
  · obtain ⟨k, hk, -⟩ := exists_trimEnd '0' (padded places (n % 10 ^ places))
    change _ = fractionOf n places ++ _ at hk
    have hmod := Nat.mod_lt n (Nat.pow_pos (n := places) (by norm_num : 0 < 10))
    have hlength := congrArg List.length hk
    rw [length_padded (Nat.pos_of_ne_zero hplaces) hmod, List.length_append, List.length_replicate] at hlength
    have hvalue := ofDigitChars_padded places (n % 10 ^ places)
    rw [hk, Nat.ofDigitChars_append, Nat.ofDigitChars_replicate_zero] at hvalue
    refine ⟨k, hlength.symm, ?_⟩
    rw [Nat.ofDigitChars_append, Nat.ofDigitChars_ten_toDigits, Nat.ofDigitChars_eq_ofDigitChars_zero]
    calc (10 ^ (fractionOf n places).length * (n / 10 ^ places) +
          Nat.ofDigitChars 10 (fractionOf n places) 0) * 10 ^ k
        = 10 ^ ((fractionOf n places).length + k) * (n / 10 ^ places) +
          10 ^ k * Nat.ofDigitChars 10 (fractionOf n places) 0 := by ring
      _ = n := by rw [← hlength, hvalue, Nat.div_add_mod]

/-- `n / 10 ^ places` in positional notation, with a sign and perhaps an exponent. -/
def written (negative : Bool) (n places : Nat) (exponent : Option (Bool × List Char))
    (hexponent : ∀ e ∈ exponent, e.2 ≠ [] ∧ ∀ c ∈ e.2, c.isDigit = true) : Decimal where
  negative := negative
  whole := Nat.toDigits 10 (n / 10 ^ places)
  fraction := fractionOf n places
  exponent := exponent
  whole_ne_nil := Nat.toDigits_ne_nil
  whole_digits := isDigit_toDigits _
  fraction_digits := isDigit_fractionOf n places
  exponent_digits := hexponent

section Written

variable {negative : Bool} {n places : Nat} {exponent : Option (Bool × List Char)}
  {hexponent : ∀ e ∈ exponent, e.2 ≠ [] ∧ ∀ c ∈ e.2, c.isDigit = true}

theorem text_written : (written negative n places exponent hexponent).text =
    (if negative then ['-'] else []) ++ (trimFraction (positional n places) ++ Decimal.mark exponent) := by
  rw [trimFraction_positional, List.append_assoc]
  rfl

theorem value_written : (written negative n places exponent hexponent).value =
    (if negative then -1 else 1) * (n * 10 ^ (Decimal.power exponent - places)) := by
  obtain ⟨k, hlength, hvalue⟩ := ofDigitChars_positional n places
  have hvalue : (Nat.ofDigitChars 10 (Nat.toDigits 10 (n / 10 ^ places) ++ fractionOf n places) 0 : ℚ) * 10 ^ k =
      n := by exact_mod_cast hvalue
  have hpower : Decimal.power exponent - (fractionOf n places).length =
      (k : ℤ) + (Decimal.power exponent - places) := by omega
  change (if negative then -1 else 1) *
    (Nat.ofDigitChars 10 (Nat.toDigits 10 (n / 10 ^ places) ++ fractionOf n places) 0 : ℚ) *
      10 ^ (Decimal.power exponent - (fractionOf n places).length) = _
  rw [hpower, zpow_add₀ (by norm_num), zpow_natCast, mul_assoc, ← mul_assoc (Nat.cast _), hvalue]

theorem getLast?_fraction_written :
    (written negative n places exponent hexponent).fraction.getLast? ≠ some '0' :=
  (exists_trimEnd '0' (padded places (n % 10 ^ places))).choose_spec.2

end Written

/-! ## The text of a number -/

/-- The value of a finite number. -/
def value (n : Number) : ℚ :=
  (if n.isNegative then -1 else 1) *
    if n.exponentField = 0 then n.fractionField * (2 : ℚ) ^ (-1074 : ℤ)
    else ((2 : ℚ) ^ 52 + n.fractionField) * 2 ^ (n.exponentField - 1075 : ℤ)

section Value

variable {n : Number}

theorem value_ratio (significand exponent : Nat) :
    (if 1075 ≤ exponent then (⟨significand * Nat.pow 2 (exponent - 1075), 1⟩ : Ratio)
      else ⟨significand, Nat.pow 2 (1075 - exponent)⟩).value = significand * 2 ^ (exponent - 1075 : ℤ) := by
  split
  · rename_i hle
    have hexp : (exponent : ℤ) - 1075 = ((exponent - 1075 : ℕ) : ℤ) := by omega
    rw [hexp, zpow_natCast, Ratio.value, Nat.pow_eq, Nat.cast_mul, Nat.cast_pow, Nat.cast_one, div_one,
      Nat.cast_ofNat]
  · rename_i hgt
    have hexp : (exponent : ℤ) - 1075 = -((1075 - exponent : ℕ) : ℤ) := by omega
    rw [hexp, zpow_neg, zpow_natCast, Ratio.value, Nat.pow_eq, Nat.cast_pow, div_eq_mul_inv, Nat.cast_ofNat]

/-- The magnitude is the value without its sign. -/
theorem value_eq_magnitude (n : Number) : n.value = (if n.isNegative then -1 else 1) * n.magnitude.value := by
  rw [value, magnitude, value_ratio]
  congr 1
  by_cases hzero : n.exponentField = 0
  · rw [if_pos hzero, if_pos hzero, hzero]
    norm_num
  · have hmax : max n.exponentField 1 = n.exponentField := by omega
    rw [if_neg hzero, if_neg hzero, hmax, Nat.cast_add, Nat.pow_eq, Nat.cast_pow, Nat.cast_ofNat, add_comm]

/-- A number that is not zero has a positive magnitude. -/
theorem magnitude_pos (h : n.isZero = false) : 0 < n.magnitude.num ∧ 0 < n.magnitude.den := by
  have hsignificand : 0 < if n.exponentField = 0 then n.fractionField else n.fractionField + Nat.pow 2 52 := by
    split
    · rename_i hexp
      simp only [isZero, hexp, beq_self_eq_true, Bool.true_and, beq_eq_false_iff_ne] at h
      exact Nat.pos_of_ne_zero h
    · exact Nat.lt_of_lt_of_le (by decide : 0 < Nat.pow 2 52) (Nat.le_add_left _ _)
  unfold magnitude
  dsimp only
  split
  · exact ⟨Nat.mul_pos hsignificand (Nat.two_pow_pos _), Nat.one_pos⟩
  · exact ⟨hsignificand, Nat.two_pow_pos _⟩

theorem value_magnitude_pos (h : n.isZero = false) : 0 < n.magnitude.value := by
  obtain ⟨hnum, hden⟩ := magnitude_pos h
  exact div_pos (by exact_mod_cast hnum) (by exact_mod_cast hden)

theorem isNegative_iff (h : n.isZero = false) : n.isNegative = true ↔ n.value < 0 := by
  have hpos := value_magnitude_pos h
  rw [value_eq_magnitude]
  cases n.isNegative <;> simp [hpos, hpos.le]

theorem abs_value (h : n.isZero = false) : |n.value| = n.magnitude.value := by
  have hpos := value_magnitude_pos h
  rw [value_eq_magnitude]
  cases n.isNegative <;> simp [hpos.le]

theorem toList_text (hnan : n.isNaN = false) (hinfinite : n.isInfinite = false) (hzero : n.isZero = false) :
    n.text.toList = (if n.isNegative then ['-'] else []) ++ n.magnitude.text := by
  simp only [text, hnan, hinfinite, hzero, Bool.false_eq_true, if_false, String.toList_append,
    String.toList_ofList]
  cases n.isNegative <;> rfl

end Value

/-- The exponent that is written after a mantissa: its sign, and at least two digits. -/
def writtenExponent (exponent : ℤ) : Bool × List Char := (decide (exponent < 0), padded 2 exponent.natAbs)

theorem power_writtenExponent (exponent : ℤ) : Decimal.power (some (writtenExponent exponent)) = exponent := by
  rw [writtenExponent, Decimal.power, ofDigitChars_padded]
  by_cases h : exponent < 0
  · rw [decide_eq_true h, if_pos rfl]
    omega
  · rw [decide_eq_false h, if_neg Bool.false_ne_true]
    omega

theorem digits_writtenExponent (exponent : ℤ) : ∀ e ∈ some (writtenExponent exponent),
    e.2 ≠ [] ∧ ∀ c ∈ e.2, c.isDigit = true := by
  rintro e ⟨⟩
  refine ⟨fun hnil => ?_, isDigit_padded 2 _⟩
  have hlength := le_length_padded 2 exponent.natAbs
  rw [show padded 2 exponent.natAbs = [] from hnil] at hlength
  exact absurd hlength (by decide)

/-- The decimal that a number with a magnitude is written as. -/
def decimal (negative : Bool) (r : Rounded) : Decimal :=
  if isPositional r.exponent then written negative r.digits (5 - r.exponent).toNat none nofun
  else written negative r.digits 5 (some (writtenExponent r.exponent)) (digits_writtenExponent r.exponent)

section Decimal

variable {r : Ratio} (negative : Bool)

/-- **The text of a ratio** spells its decimal. -/
theorem text_decimal (hnum : 0 < r.num) (hden : 0 < r.den) :
    (decimal negative (sixDigits r)).text = (if negative then ['-'] else []) ++ r.text := by
  unfold decimal Ratio.text
  by_cases hpositional : isPositional (sixDigits r).exponent = true
  · have hle : (sixDigits r).exponent ≤ 5 := by
      simp only [isPositional, Bool.and_eq_true, decide_eq_true_eq] at hpositional
      omega
    simp only [if_pos hpositional, text_written, atPlaces_sixDigits hnum hden hle, Decimal.mark, List.append_nil]
  · simp only [if_neg hpositional, text_written, Decimal.mark, writtenExponent, decide_eq_true_eq]

theorem value_decimal (r : Rounded) :
    (decimal negative r).value = (if negative then -1 else 1) * r.value := by
  unfold decimal Rounded.value
  split
  · rename_i hpositional
    have hexp : Decimal.power none - ((5 - r.exponent).toNat : ℤ) = r.exponent - 5 := by
      simp only [isPositional, Bool.and_eq_true, decide_eq_true_eq] at hpositional
      simp only [Decimal.power]
      omega
    rw [value_written, hexp]
  · rw [value_written, power_writtenExponent]
    rfl

theorem negative_decimal (r : Rounded) : (decimal negative r).negative = negative := by
  unfold decimal
  split <;> rfl

theorem getLast?_fraction_decimal (r : Rounded) : (decimal negative r).fraction.getLast? ≠ some '0' := by
  unfold decimal
  split <;> exact getLast?_fraction_written

theorem exponent_decimal (r : Rounded) :
    (decimal negative r).exponent = if isPositional r.exponent then none else some (writtenExponent r.exponent) := by
  unfold decimal
  split <;> rfl

/-- Before an exponent there is one digit before the point, and not a zero. -/
theorem mantissa_decimal {r : Rounded} (hr : r.Normal) (h : isPositional r.exponent = false) :
    ∃ c, (decimal negative r).whole = [c] ∧ c ≠ '0' := by
  obtain ⟨hlow, hhigh⟩ := hr
  have hone : 1 ≤ r.digits / 10 ^ 5 := (Nat.le_div_iff_mul_le (by norm_num)).2 (by omega)
  have hten : r.digits / 10 ^ 5 < 10 := (Nat.div_lt_iff_lt_mul (by norm_num)).2 (by omega)
  have hwhole : (decimal negative r).whole = Nat.toDigits 10 (r.digits / 10 ^ 5) := by
    unfold decimal
    rw [if_neg (by simp [h])]
    rfl
  refine ⟨_, hwhole.trans (Nat.toDigits_of_lt_base hten), ?_⟩
  have hdigit : ∀ k < 10, 1 ≤ k → k.digitChar ≠ '0' := by decide
  exact hdigit _ hten hone

end Decimal

/-- The text of a number spells the decimal `d`, which is the number rounded to `r` at six significant digits. -/
structure Printed (n : Number) (r : Rounded) (d : Decimal) : Prop where
  rounds : r.Rounds |n.value|
  spells : ∀ e : Decimal, e.text = n.text.toList ↔ e = d
  value : d.value = if n.value < 0 then -r.value else r.value
  /-- The number is within half a unit of the sixth digit. -/
  close : |d.value - n.value| ≤ 10 ^ (r.exponent - 5) / 2
  negative : d.negative = true ↔ n.value < 0
  /-- No zero ends the fraction; as in every decimal, there is no point without a fraction. -/
  fraction : d.fraction.getLast? ≠ some '0'
  positional : d.exponent = none ↔ -4 ≤ r.exponent ∧ r.exponent < 6
  /-- An exponent has its sign and at least two digits, and one digit stands before the point of its mantissa. -/
  exponent : ∀ negative digits, d.exponent = some (negative, digits) →
    (negative = true ↔ r.exponent < 0) ∧ 2 ≤ digits.length ∧
      Nat.ofDigitChars 10 digits 0 = r.exponent.natAbs ∧ ∃ c, d.whole = [c] ∧ c ≠ '0'

/-- **The text of a number** that is finite and not zero is the number at six significant digits. -/
theorem text_printed (n : Number) (hnan : n.isNaN = false) (hinfinite : n.isInfinite = false)
    (hzero : n.isZero = false) : ∃ (r : Rounded) (d : Decimal), n.Printed r d := by
  obtain ⟨hnum, hden⟩ := magnitude_pos hzero
  have hrounds := sixDigits_rounds hnum hden
  have hpositional {exponent : ℤ} : isPositional exponent = true ↔ -4 ≤ exponent ∧ exponent < 6 := by
    simp [isPositional]
  set r := sixDigits n.magnitude with hr
  refine ⟨r, decimal n.isNegative r, {
    rounds := abs_value hzero ▸ hrounds
    spells := fun e => ?_
    value := ?_
    close := ?_
    negative := by rw [negative_decimal, isNegative_iff hzero]
    fraction := getLast?_fraction_decimal _ _
    positional := ?_
    exponent := fun negative digits hexponent => ?_ }⟩
  · rw [toList_text hnan hinfinite hzero, ← text_decimal _ hnum hden]
    exact ⟨Decimal.text_injective, fun h => h ▸ rfl⟩
  · rw [value_decimal]
    simp only [← isNegative_iff hzero]
    cases n.isNegative <;> simp
  · rw [value_decimal, value_eq_magnitude, ← mul_sub, abs_mul]
    have hclose := sixDigits_close hnum hden
    cases n.isNegative <;> simpa using hclose
  · rw [exponent_decimal, ← hpositional]
    cases isPositional r.exponent <;> simp
  · rw [exponent_decimal] at hexponent
    cases hnot : isPositional r.exponent with
    | true => simp [hnot] at hexponent
    | false =>
      rw [hnot, if_neg Bool.false_ne_true, writtenExponent, Option.some.injEq, Prod.mk.injEq] at hexponent
      obtain ⟨rfl, rfl⟩ := hexponent
      exact ⟨decide_eq_true_iff, le_length_padded 2 _, ofDigitChars_padded 2 _,
        mantissa_decimal _ hrounds.normal hnot⟩

/-- The number `999999.5`: rounding carries into the next power of ten, which has an exponent. -/
theorem text_printed_carried : (⟨0x412e847f00000000⟩ : Number).isNaN = false ∧
    (⟨0x412e847f00000000⟩ : Number).isInfinite = false ∧ (⟨0x412e847f00000000⟩ : Number).isZero = false ∧
    (⟨0x412e847f00000000⟩ : Number).text = "1e+06" ∧
    ∃ (r : Rounded) (d : Decimal), (⟨0x412e847f00000000⟩ : Number).Printed r d :=
  ⟨by decide, by decide, by decide, by decide +kernel,
    text_printed _ (by decide) (by decide) (by decide)⟩

end Number

end LoxMachine
