import Mathlib.Algebra.Order.Field.Power
import Mathlib.Algebra.Order.Ring.Abs
import Mathlib.Data.Rat.Cast.Order
import Mathlib.Tactic.FieldSimp
import Mathlib.Tactic.Linarith
import Mathlib.Tactic.NormNum
import Mathlib.Tactic.Positivity
import Mathlib.Tactic.Ring
import LoxMachine.Number.Text

/-!
# Rounding to six significant digits

* `Nearest n q`: the natural number `n` is nearest to `q`, and even if there is a tie.
* `Number.Rounded.Rounds r q`: no decimal of six digits is nearer to `q` than `r`, and `r` has an even last digit
  if there is a tie.
* `sixDigits_rounds`: `sixDigits` rounds so, also where rounding carries into the next power of ten.
* `atPlaces_sixDigits`: rounding to the decimal places that leave six digits gives the same digits.
-/

namespace LoxMachine

/-! ## Rounding a quotient -/

/-- The natural number `n` is nearest to `q`; a tie goes to the even neighbour. -/
def Nearest (n : Nat) (q : ℚ) : Prop := |n - q| ≤ 1 / 2 ∧ (|n - q| = 1 / 2 → Even n)

namespace Nearest

variable {m n : Nat} {q : ℚ}

theorem roundDiv (num : Nat) {den : Nat} (h : 0 < den) : Nearest (roundDiv num den) (num / den) := by
  have hden : (0 : ℚ) < den := by exact_mod_cast h
  have hdiv : (den : ℚ) * ↑(num / den) + ↑(num % den) = num := by exact_mod_cast Nat.div_add_mod num den
  have hq : (num : ℚ) / den = ↑(num / den) + ↑(num % den) / den := by
    rw [← hdiv]
    field_simp
  have hdown : |(↑(num / den) : ℚ) - num / den| = ↑(num % den) / den := by
    rw [hq, sub_add_cancel_left, abs_neg, abs_of_nonneg (by positivity)]
  have hup : |(↑(num / den + 1) : ℚ) - num / den| = (den - ↑(num % den)) / den := by
    have hmod : (↑(num % den) : ℚ) ≤ den := by exact_mod_cast (Nat.mod_lt num h).le
    rw [hq, Nat.cast_add, Nat.cast_one, add_sub_add_left_eq_sub, ← div_self hden.ne', ← sub_div,
      abs_of_nonneg (div_nonneg (sub_nonneg.2 hmod) hden.le)]
  unfold LoxMachine.roundDiv
  dsimp only
  split
  · rename_i hlt
    have hlt' : (2 : ℚ) * ↑(num % den) < den := by exact_mod_cast hlt
    have hhalf : (↑(num % den) : ℚ) / den < 1 / 2 := by
      rw [div_lt_div_iff₀ hden two_pos]
      linarith
    exact ⟨hdown ▸ hhalf.le, fun heq => absurd (hdown ▸ heq) hhalf.ne⟩
  · rename_i hge
    split
    · rename_i hgt
      have hgt' : (den : ℚ) < 2 * ↑(num % den) := by exact_mod_cast hgt
      have hhalf : ((den : ℚ) - ↑(num % den)) / den < 1 / 2 := by
        rw [div_lt_div_iff₀ hden two_pos]
        linarith
      exact ⟨hup ▸ hhalf.le, fun heq => absurd (hup ▸ heq) hhalf.ne⟩
    · rename_i hle
      have heq : (den : ℚ) = 2 * ↑(num % den) := by exact_mod_cast (by omega : den = 2 * (num % den))
      have hpos : (0 : ℚ) < ↑(num % den) := by linarith
      split
      · rename_i heven
        refine ⟨le_of_eq ?_, fun _ => Nat.even_iff.2 heven⟩
        rw [hdown, heq]
        field_simp
      · rename_i hodd
        refine ⟨le_of_eq ?_, fun _ => Nat.even_iff.2 (by omega)⟩
        rw [hup, heq]
        field_simp
        ring

/-- No integer is nearer, and at a tie the nearest one is even. -/
theorem nearer (h : Nearest n q) (m : ℤ) : |n - q| ≤ |m - q| ∧ (|n - q| = |m - q| → (m : ℚ) ≠ n → Even n) := by
  by_cases hmn : m = n
  · subst hmn
    exact ⟨le_of_eq (by simp), fun _ hne => absurd (by simp) hne⟩
  · have hone : (1 : ℚ) ≤ |(m : ℚ) - n| := by
      have hint : (1 : ℤ) ≤ |m - n| := Int.one_le_abs (sub_ne_zero.2 hmn)
      exact_mod_cast hint
    have hsum : |(m : ℚ) - n| ≤ |m - q| + |n - q| := by
      rw [abs_sub_comm (n : ℚ) q]
      exact abs_sub_le (m : ℚ) q n
    have hhalf := h.1
    exact ⟨by linarith, fun heq _ => h.2 (by linarith)⟩

/-- There is only one nearest number. -/
theorem unique (hm : Nearest m q) (hn : Nearest n q) : m = n := by
  by_contra hne
  have hne' : (m : ℚ) ≠ n := by exact_mod_cast hne
  have hle := (hm.nearer n).1
  have hge := (hn.nearer m).1
  have hmeven : Even m := (hm.nearer n).2 (le_antisymm hle hge) (by exact_mod_cast hne'.symm)
  have hneven : Even n := (hn.nearer m).2 (le_antisymm hge hle) (by exact_mod_cast hne')
  have hclose : |(m : ℚ) - n| ≤ 1 := by
    have hsum := abs_sub_le (m : ℚ) q n
    have := hm.1
    have := hn.1
    rw [abs_sub_comm q] at hsum
    linarith
  have hint : |(m : ℤ) - n| ≤ 1 := by exact_mod_cast hclose
  obtain ⟨hlow, hhigh⟩ := abs_le.1 hint
  obtain ⟨a, rfl⟩ := hmeven
  obtain ⟨b, rfl⟩ := hneven
  omega

end Nearest

namespace Number

/-! ## Decimal exponents -/

/-- The value of a ratio. -/
def Ratio.value (r : Ratio) : ℚ := r.num / r.den

theorem lt_pow_decimalLength (n : Nat) : n < 10 ^ decimalLength n :=
  (Nat.length_toDigits_le_iff (by norm_num) Nat.length_toDigits_pos).1 le_rfl

theorem pow_le_of_decimalLength {n k : Nat} (hn : 0 < n) (hk : decimalLength n = k + 1) : 10 ^ k ≤ n := by
  by_contra hlt
  rcases Nat.eq_zero_or_pos k with rfl | hpos
  · omega
  · have hle := (Nat.length_toDigits_le_iff (b := 10) (by norm_num) hpos).2 (not_le.1 hlt)
    rw [decimalLength] at hk
    omega

/-- **The decimal exponent** of a positive ratio. -/
theorem decimalExponent_bounds {r : Ratio} (hnum : 0 < r.num) (hden : 0 < r.den) :
    (10 : ℚ) ^ decimalExponent r ≤ r.value ∧ r.value < 10 ^ (decimalExponent r + 1) := by
  have hnumQ : (0 : ℚ) < r.num := by exact_mod_cast hnum
  have hdenQ : (0 : ℚ) < r.den := by exact_mod_cast hden
  unfold decimalExponent
  split
  · rename_i hle
    have hpos : 0 < r.num / r.den := Nat.div_pos hle hden
    obtain ⟨k, hk⟩ := Nat.exists_eq_succ_of_ne_zero (Nat.length_toDigits_pos (b := 10) (n := r.num / r.den)).ne'
    have hlength : decimalLength (r.num / r.den) = k + 1 := hk
    have hlow := (Nat.le_div_iff_mul_le hden).1 (pow_le_of_decimalLength hpos hlength)
    have hhigh := (Nat.div_lt_iff_lt_mul hden).1 (lt_pow_decimalLength (r.num / r.den))
    rw [hlength] at hhigh ⊢
    rw [Nat.cast_add, Nat.cast_one, add_sub_cancel_right, zpow_natCast, Ratio.value, le_div_iff₀ hdenQ,
      div_lt_iff₀ hdenQ]
    exact ⟨by exact_mod_cast hlow, by exact_mod_cast hhigh⟩
  · rename_i hlt
    -- `m + 1` is the quotient of the denominator by the numerator, rounded up
    set m := (r.den + r.num - 1) / r.num - 1 with hm
    have htwo : 2 ≤ (r.den + r.num - 1) / r.num := (Nat.le_div_iff_mul_le hnum).2 (by omega)
    have hup : r.den ≤ (m + 1) * r.num := by
      have hsucc : m + 1 = (r.den + r.num - 1) / r.num := by omega
      have hdiv := Nat.div_add_mod (r.den + r.num - 1) r.num
      have hmod := Nat.mod_lt (r.den + r.num - 1) hnum
      rw [hsucc, Nat.mul_comm]
      omega
    have hdown : m * r.num < r.den := by
      have hle : (m + 1) * r.num ≤ r.den + r.num - 1 := by
        have hsucc : m + 1 = (r.den + r.num - 1) / r.num := by omega
        rw [hsucc]
        exact Nat.div_mul_le_self _ _
      rw [Nat.succ_mul] at hle
      omega
    obtain ⟨k, hk⟩ := Nat.exists_eq_succ_of_ne_zero (Nat.length_toDigits_pos (b := 10) (n := m)).ne'
    have hlength : decimalLength m = k + 1 := hk
    have hlow : 10 ^ k * r.num < r.den :=
      (Nat.mul_le_mul_right _ (pow_le_of_decimalLength (by omega) hlength)).trans_lt hdown
    have hhigh : r.den ≤ 10 ^ (k + 1) * r.num :=
      hup.trans (Nat.mul_le_mul_right _ (hlength ▸ lt_pow_decimalLength m))
    rw [hlength, Nat.cast_add, Nat.cast_one, neg_add_rev, neg_add_cancel_comm, zpow_neg, zpow_natCast, Ratio.value,
      ← neg_add_rev, zpow_neg, ← Nat.cast_one, ← Nat.cast_add, zpow_natCast, le_div_iff₀ hdenQ,
      div_lt_iff₀ hdenQ, inv_mul_le_iff₀ (by positivity), lt_inv_mul_iff₀ (by positivity)]
    exact ⟨by exact_mod_cast hhigh, by exact_mod_cast hlow⟩

/-! ## Six digits -/

namespace Rounded

/-- The value of a rounded number. -/
def value (r : Rounded) : ℚ := r.digits * 10 ^ (r.exponent - 5)

/-- There are six digits, the first of them not zero. -/
def Normal (r : Rounded) : Prop := 10 ^ 5 ≤ r.digits ∧ r.digits < 10 ^ 6

/-- The decimal of six digits that is nearest to `q`, the even one at a tie. -/
structure Rounds (r : Rounded) (q : ℚ) : Prop where
  normal : r.Normal
  nearest : ∀ t : Rounded, t.Normal → |r.value - q| ≤ |t.value - q|
  tie : ∀ t : Rounded, t.Normal → |r.value - q| = |t.value - q| → t.value ≠ r.value → Even r.digits

end Rounded

section SixDigits

variable {r : Ratio}

/-- The ratio in units of its sixth digit. -/
theorem scaled_bounds (hnum : 0 < r.num) (hden : 0 < r.den) :
    (10 : ℚ) ^ 5 ≤ r.value * 10 ^ (5 - decimalExponent r) ∧
      r.value * 10 ^ (5 - decimalExponent r) < 10 ^ 6 := by
  obtain ⟨hlow, hhigh⟩ := decimalExponent_bounds hnum hden
  have hpos : (0 : ℚ) < 10 ^ (5 - decimalExponent r) := by positivity
  have hlow' := mul_le_mul_of_nonneg_right hlow hpos.le
  have hhigh' := mul_lt_mul_of_pos_right hhigh hpos
  rw [← zpow_add₀ (by norm_num)] at hlow' hhigh'
  rw [add_sub_cancel] at hlow'
  rw [add_right_comm, add_sub_cancel] at hhigh'
  exact ⟨by exact_mod_cast hlow', by exact_mod_cast hhigh'⟩

/-- A ratio at decimal places is rounded in units of the last one. -/
theorem nearest_atPlaces (hden : 0 < r.den) (places : Nat) :
    Nearest (r.atPlaces places) (r.value * 10 ^ (places : ℤ)) := by
  have hround := Nearest.roundDiv (r.num * 10 ^ places) hden
  rw [zpow_natCast, Ratio.value, div_mul_eq_mul_div]
  exact_mod_cast hround

/-- Six digits are the ratio rounded in units of its sixth digit, but for a carry. -/
theorem sixDigits_cases (hnum : 0 < r.num) (hden : 0 < r.den) :
    ∃ n : Nat, Nearest n (r.value * 10 ^ (5 - decimalExponent r)) ∧
      (10 ^ 5 ≤ n ∧ n < 10 ^ 6 ∧ sixDigits r = ⟨n, decimalExponent r⟩ ∨
        n = 10 ^ 6 ∧ sixDigits r = ⟨10 ^ 5, decimalExponent r + 1⟩) := by
  obtain ⟨hlow, hhigh⟩ := scaled_bounds hnum hden
  set x := decimalExponent r with hx
  set n := if x ≤ 5 then roundDiv (r.num * Nat.pow 10 (5 - x).toNat) r.den
    else roundDiv r.num (r.den * Nat.pow 10 (x - 5).toNat) with hn
  have hnearest : Nearest n (r.value * 10 ^ (5 - x)) := by
    rw [hn]
    split
    · rename_i hle
      have hplaces := nearest_atPlaces (r := r) hden (5 - x).toNat
      rwa [Int.toNat_of_nonneg (by omega)] at hplaces
    · rename_i hgt
      have hround := Nearest.roundDiv r.num (Nat.mul_pos hden (Nat.pow_pos (n := (x - 5).toNat) (by norm_num : 0 < 10)))
      have hvalue : r.value * 10 ^ (5 - x) = r.num / ↑(r.den * 10 ^ (x - 5).toNat) := by
        have hneg : 5 - x = -((x - 5).toNat : ℤ) := by omega
        rw [hneg, zpow_neg, zpow_natCast, Ratio.value, Nat.cast_mul, Nat.cast_pow, Nat.cast_ofNat, ← div_eq_mul_inv,
          div_div]
      rw [hvalue]
      exact hround
  have hsix : sixDigits r = if n = Nat.pow 10 6 then ⟨Nat.pow 10 5, x + 1⟩ else ⟨n, x⟩ := rfl
  obtain ⟨hbelow, habove⟩ := abs_le.1 hnearest.1
  have hge : 10 ^ 5 ≤ n := by
    have hgt : ((10 ^ 5 : ℕ) : ℚ) < (n + 1 : ℕ) := by
      push_cast
      linarith
    exact Nat.lt_succ_iff.1 (by exact_mod_cast hgt)
  have hle : n ≤ 10 ^ 6 := by
    have hlt : (n : ℚ) < (10 ^ 6 + 1 : ℕ) := by
      push_cast
      linarith
    exact Nat.lt_succ_iff.1 (by exact_mod_cast hlt)
  refine ⟨n, hnearest, ?_⟩
  by_cases hcarry : n = 10 ^ 6
  · exact .inr ⟨hcarry, hsix.trans (if_pos hcarry)⟩
  · exact .inl ⟨hge, lt_of_le_of_ne hle hcarry, hsix.trans (if_neg hcarry)⟩

/-- The rounded value, carry or not. -/
theorem value_sixDigits (hnum : 0 < r.num) (hden : 0 < r.den) :
    ∃ n : Nat, Nearest n (r.value * 10 ^ (5 - decimalExponent r)) ∧
      (sixDigits r).value = n * 10 ^ (decimalExponent r - 5) ∧ (sixDigits r).Normal ∧
      (Even n → Even (sixDigits r).digits) ∧ decimalExponent r ≤ (sixDigits r).exponent := by
  obtain ⟨n, hn, ⟨hge, hlt, hsix⟩ | ⟨rfl, hsix⟩⟩ := sixDigits_cases hnum hden
  · rw [hsix]
    exact ⟨n, hn, rfl, ⟨hge, hlt⟩, id, le_rfl⟩
  · rw [hsix]
    refine ⟨_, hn, ?_, ⟨le_rfl, by norm_num⟩, fun _ => (by decide : Even (10 ^ 5)), by simp⟩
    rw [Rounded.value, add_sub_right_comm, zpow_add_one₀ (by norm_num)]
    push_cast
    ring

/-- **Six significant digits are the nearest ones.** -/
theorem sixDigits_rounds (hnum : 0 < r.num) (hden : 0 < r.den) : (sixDigits r).Rounds r.value := by
  obtain ⟨n, hn, hvalue, hnormal, heven, -⟩ := value_sixDigits hnum hden
  set x := decimalExponent r with hx
  set unit : ℚ := 10 ^ (x - 5) with hunit
  have hpos : 0 < unit := by positivity
  have hscale : r.value = r.value * 10 ^ (5 - x) * unit := by
    rw [hunit, mul_assoc, ← zpow_add₀ (by norm_num)]
    simp
  have hdistance (m : ℚ) : |m * unit - r.value| = |m - r.value * 10 ^ (5 - x)| * unit := by
    conv_lhs => rw [hscale]
    rw [← sub_mul, abs_mul, abs_of_pos hpos]
  -- a decimal of six digits is a multiple of the unit, or is below all six-digit multiples of it
  have hother (t : Rounded) (ht : t.Normal) :
      (∃ m : ℤ, t.value = m * unit) ∨ t.value < ((10 ^ 5 : ℤ) : ℚ) * unit := by
    by_cases hexp : x ≤ t.exponent
    · refine .inl ⟨t.digits * 10 ^ (t.exponent - x).toNat, ?_⟩
      have hsplit : t.exponent - 5 = ((t.exponent - x).toNat : ℤ) + (x - 5) := by omega
      rw [Rounded.value, hsplit, zpow_add₀ (by norm_num), zpow_natCast, ← mul_assoc]
      push_cast
      rfl
    · refine .inr ?_
      have hdigits : (t.digits : ℚ) < 10 ^ 6 := by exact_mod_cast ht.2
      have hle : (10 : ℚ) ^ (t.exponent - 5) ≤ 10 ^ (x - 5 - 1) :=
        zpow_le_zpow_right₀ (by norm_num) (by omega)
      calc t.value < 10 ^ 6 * 10 ^ (t.exponent - 5) := mul_lt_mul_of_pos_right hdigits (by positivity)
        _ ≤ 10 ^ 6 * 10 ^ (x - 5 - 1) := mul_le_mul_of_nonneg_left hle (by positivity)
        _ = ((10 ^ 5 : ℤ) : ℚ) * unit := by
          rw [zpow_sub_one₀ (by norm_num), hunit]
          push_cast
          ring
  have hbound : ((10 ^ 5 : ℤ) : ℚ) * unit ≤ r.value := by
    conv_rhs => rw [hscale]
    exact mul_le_mul_of_nonneg_right (by exact_mod_cast (scaled_bounds hnum hden).1) hpos.le
  have hinteger (m : ℤ) : |(sixDigits r).value - r.value| ≤ |m * unit - r.value| := by
    rw [hvalue, hdistance, hdistance]
    exact mul_le_mul_of_nonneg_right (hn.nearer m).1 hpos.le
  have hbelow {v : ℚ} (hv : v < ((10 ^ 5 : ℤ) : ℚ) * unit) : |(sixDigits r).value - r.value| < |v - r.value| := by
    refine (hinteger (10 ^ 5)).trans_lt ?_
    rw [abs_of_nonpos (by linarith), abs_of_nonpos (by linarith)]
    linarith
  refine ⟨hnormal, fun t ht => ?_, fun t ht heq hne => ?_⟩
  · rcases hother t ht with ⟨m, hm⟩ | hlt
    · exact hm ▸ hinteger m
    · exact (hbelow hlt).le
  · rcases hother t ht with ⟨m, hm⟩ | hlt
    · rw [hm, hvalue, hdistance, hdistance] at heq
      refine heven ((hn.nearer m).2 (mul_right_cancel₀ hpos.ne' heq) ?_)
      rintro hmn
      exact hne (by rw [hm, hvalue, hmn])
    · exact absurd heq (hbelow hlt).ne

/-- The rounded value is within half a unit of its sixth digit. -/
theorem sixDigits_close (hnum : 0 < r.num) (hden : 0 < r.den) :
    |(sixDigits r).value - r.value| ≤ 10 ^ ((sixDigits r).exponent - 5) / 2 := by
  obtain ⟨n, hn, hvalue, -, -, hexp⟩ := value_sixDigits hnum hden
  set x := decimalExponent r with hx
  have hpos : (0 : ℚ) < 10 ^ (x - 5) := by positivity
  have hscale : r.value = r.value * 10 ^ (5 - x) * 10 ^ (x - 5) := by
    rw [mul_assoc, ← zpow_add₀ (by norm_num)]
    simp
  calc |(sixDigits r).value - r.value| = |n - r.value * 10 ^ (5 - x)| * 10 ^ (x - 5) := by
        conv_lhs => rw [hvalue, hscale]
        rw [← sub_mul, abs_mul, abs_of_pos hpos]
    _ ≤ 1 / 2 * 10 ^ (x - 5) := mul_le_mul_of_nonneg_right hn.1 hpos.le
    _ ≤ 10 ^ ((sixDigits r).exponent - 5) / 2 := by
        have hle : (10 : ℚ) ^ (x - 5) ≤ 10 ^ ((sixDigits r).exponent - 5) :=
          zpow_le_zpow_right₀ (by norm_num) (by omega)
        linarith

/-- **The two roundings agree**: at the decimal places that leave a ratio six digits it has the digits that it
has at six significant digits, also when these were carried into the next power of ten. -/
theorem atPlaces_sixDigits (hnum : 0 < r.num) (hden : 0 < r.den) (h : (sixDigits r).exponent ≤ 5) :
    r.atPlaces (5 - (sixDigits r).exponent).toNat = (sixDigits r).digits := by
  have hplaces := nearest_atPlaces hden (r := r) (5 - (sixDigits r).exponent).toNat
  rw [Int.toNat_of_nonneg (by omega)] at hplaces
  obtain ⟨n, hn, ⟨-, -, hsix⟩ | ⟨rfl, hsix⟩⟩ := sixDigits_cases hnum hden
  · rw [hsix] at hplaces ⊢
    exact hplaces.unique hn
  · -- just below a power of ten, one place less rounds up to it as well
    rw [hsix] at hplaces ⊢
    refine hplaces.unique ?_
    obtain ⟨-, hhigh⟩ := scaled_bounds hnum hden
    obtain ⟨hbelow, -⟩ := abs_le.1 hn.1
    obtain ⟨-, habove⟩ := abs_le.1 hn.1
    have hshift : r.value * 10 ^ (5 - (decimalExponent r + 1)) =
        r.value * 10 ^ (5 - decimalExponent r) / 10 := by
      rw [← sub_sub, zpow_sub_one₀ (by norm_num), ← mul_assoc, div_eq_mul_inv]
    push_cast at habove
    have hclose : |((10 ^ 5 : ℕ) : ℚ) - r.value * 10 ^ (5 - (decimalExponent r + 1))| < 1 / 2 := by
      rw [hshift, abs_lt]
      push_cast
      constructor <;> linarith
    exact ⟨hclose.le, fun heq => absurd heq hclose.ne⟩

end SixDigits

end Number

end LoxMachine
