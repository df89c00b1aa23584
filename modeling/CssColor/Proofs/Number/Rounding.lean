import Mathlib.Algebra.Order.Field.Power
import Mathlib.Algebra.Order.Round
import Mathlib.Data.Int.Log
import Mathlib.Data.Rat.Floor
import Mathlib.Tactic.FieldSimp
import Mathlib.Tactic.Linarith
import Mathlib.Tactic.NormNum
import Mathlib.Tactic.Positivity
import Mathlib.Tactic.Ring

/-!
# Rounding to 53 bits

What the arithmetic of 64 bits gives in terms of rationals. The magnitudes that a number can have
are the short ones (`Binary.IsShort`), those with 53 bits and an exponent that is not too small. An
operation rounds its exact result to a nearest short magnitude (`Binary.IsNearest`): a result that
is short itself is exact, a short bound of it is kept, and the error is relative to its size
(`Binary.IsNearest.abs_sub_le`).
-/

namespace CssColor.Binary

/-! ## Short magnitudes -/

/-- A rational that is not negative is the quotient of two natural numbers, its numerator and its
denominator. -/
theorem natAbs_num_div_den {x : ℚ} (hx : 0 ≤ x) : (x.num.natAbs : ℚ) / x.den = x := by
  have hnum : ((x.num.natAbs : ℤ) : ℚ) = x.num := by
    rw [Int.natAbs_of_nonneg (Rat.num_nonneg.2 hx)]
  rw [← Int.cast_natCast, hnum, Rat.num_div_den]

/-- The magnitudes with up to 53 bits whose last bit is not below the least one. -/
def IsShort (x : ℚ) : Prop := ∃ (m : ℕ) (e : ℤ), m ≤ 2 ^ 53 ∧ -1074 ≤ e ∧ x = m * 2 ^ e

/-- Natural numbers are short up to the first one that needs 54 bits. -/
theorem isShort_natCast {n : ℕ} (h : n ≤ 2 ^ 53) : IsShort n :=
  ⟨n, 0, h, by norm_num, by rw [zpow_zero, mul_one]⟩

/-- Nothing has to be rounded to get zero. -/
theorem isShort_zero : IsShort 0 := by
  exact_mod_cast isShort_natCast (Nat.zero_le _)

/-- Nothing has to be rounded to get one. -/
theorem isShort_one : IsShort 1 := by
  exact_mod_cast isShort_natCast Nat.one_le_two_pow

/-- Short magnitudes are magnitudes: they have no sign. -/
theorem IsShort.nonneg {x : ℚ} (h : IsShort x) : 0 ≤ x := by
  obtain ⟨m, e, -, -, rfl⟩ := h
  positivity

/-- A natural number is at most one half away from any magnitude. -/
theorem exists_natCast_near {x : ℚ} (hx : 0 ≤ x) : ∃ n : ℕ, |(n : ℚ) - x| ≤ 1 / 2 := by
  refine ⟨⌊x + 1 / 2⌋₊, ?_⟩
  have hlow : (⌊x + 1 / 2⌋₊ : ℚ) ≤ x + 1 / 2 := Nat.floor_le (by linarith)
  have hhigh : x + 1 / 2 < ⌊x + 1 / 2⌋₊ + 1 := Nat.lt_floor_add_one _
  rw [abs_le]
  constructor <;> linarith

/-- Rounding to a natural number keeps upper bounds that are natural numbers. -/
theorem le_of_near {x : ℚ} {n bound : ℕ} (h : |(n : ℚ) - x| ≤ 1 / 2) (hx : x ≤ bound) :
    n ≤ bound := by
  have hlt : (n : ℚ) < bound + 1 := by linarith [(abs_le.1 h).2]
  exact Nat.lt_succ_iff.1 (by exact_mod_cast hlt)

/-- Rounding to a natural number keeps lower bounds that are natural numbers. -/
theorem ge_of_near {x : ℚ} {n bound : ℕ} (h : |(n : ℚ) - x| ≤ 1 / 2) (hx : bound ≤ x) :
    bound ≤ n := by
  have hlt : (bound : ℚ) < n + 1 := by linarith [(abs_le.1 h).1]
  exact Nat.lt_succ_iff.1 (by exact_mod_cast hlt)

/-- One integer is nearer than one half. -/
theorem eq_of_near {x : ℚ} {n k : ℕ} (hn : |(n : ℚ) - x| ≤ 1 / 2) (hk : |x - k| < 1 / 2) :
    n = k := by
  have htriangle := abs_sub_le (n : ℚ) x k
  have hlt : |((n : ℤ) - k : ℚ)| < 1 := by
    push_cast
    linarith
  have hint : |(n : ℤ) - k| < 1 := by exact_mod_cast hlt
  have := Int.abs_lt_one_iff.1 hint
  omega

/-- A nearest short magnitude. -/
structure IsNearest (r q : ℚ) : Prop where
  short : IsShort r
  le_of_short : ∀ {x}, IsShort x → |r - q| ≤ |x - q|

namespace IsNearest

variable {r r' q x : ℚ}

/-- A short magnitude is nearest to itself. -/
theorem self (hq : IsShort q) : IsNearest q q := by
  refine ⟨hq, fun _ => ?_⟩
  rw [sub_self, abs_zero]
  exact abs_nonneg _

/-- A short magnitude is its own nearest one. -/
theorem eq_of_short (h : IsNearest r q) (hq : IsShort q) : r = q := by
  have hle := h.le_of_short hq
  rw [sub_self, abs_zero] at hle
  exact sub_eq_zero.1 (abs_eq_zero.1 (le_antisymm hle (abs_nonneg _)))

/-- What is below a short magnitude is rounded to one that is not above it. -/
theorem le_of_le (h : IsNearest r q) (hx : IsShort x) (hqx : q ≤ x) : r ≤ x := by
  by_contra hlt
  have hle := h.le_of_short hx
  rw [abs_of_nonneg (by linarith), abs_of_nonneg (by linarith)] at hle
  linarith

/-- A result of normal size is off by half of its last bit at most. -/
theorem abs_sub_le (h : IsNearest r q) (hq : (2 : ℚ) ^ (-1022 : ℤ) ≤ q) :
    |r - q| ≤ q / 2 ^ 53 := by
  have hpos : 0 < q := lt_of_lt_of_le (by positivity) hq
  -- The last of 53 bits of the exact result.
  obtain ⟨e, he⟩ : ∃ e : ℤ, e = Int.log 2 q - 52 := ⟨_, rfl⟩
  have hlow : (2 : ℚ) ^ 52 * 2 ^ e ≤ q := by
    have hlog : (2 : ℚ) ^ Int.log 2 q ≤ q := by
      exact_mod_cast Int.zpow_log_le_self (by norm_num) hpos
    rw [show Int.log 2 q = 52 + e by omega, zpow_add₀ two_ne_zero] at hlog
    exact_mod_cast hlog
  have hhigh : q < (2 : ℚ) ^ 53 * 2 ^ e := by
    have hlog : q < (2 : ℚ) ^ (Int.log 2 q + 1) := by
      exact_mod_cast Int.lt_zpow_succ_log_self (by norm_num) q
    rw [show Int.log 2 q + 1 = 53 + e by omega, zpow_add₀ two_ne_zero] at hlog
    exact_mod_cast hlog
  have hmin : -1074 ≤ e := by
    have hlog : -1022 ≤ Int.log 2 q := by
      rw [← Int.zpow_le_iff_le_log (by norm_num) hpos]
      exact_mod_cast hq
    omega
  -- A multiple of that bit next to the exact result is short.
  have hunit : (0 : ℚ) < 2 ^ e := by positivity
  obtain ⟨x, rfl⟩ : ∃ x, q = x * 2 ^ e := ⟨q / 2 ^ e, (div_mul_cancel₀ q hunit.ne').symm⟩
  have hxlow : (2 : ℚ) ^ 52 ≤ x := le_of_mul_le_mul_right hlow hunit
  have hxhigh : x < 2 ^ 53 := lt_of_mul_lt_mul_right hhigh hunit.le
  have hx : 0 ≤ x := le_trans (by positivity) hxlow
  obtain ⟨n, hn⟩ := exists_natCast_near hx
  have hshort : IsShort (n * 2 ^ e) := ⟨n, e, le_of_near hn (by exact_mod_cast hxhigh.le), hmin, rfl⟩
  -- No short magnitude is nearer than `r`, and this one is off by half of a bit at most.
  calc |r - x * 2 ^ e| ≤ |n * 2 ^ e - x * 2 ^ e| := h.le_of_short hshort
    _ = |n - x| * 2 ^ e := by rw [← sub_mul, abs_mul, abs_of_pos hunit]
    _ ≤ 1 / 2 * 2 ^ e := mul_le_mul_of_nonneg_right hn hunit.le
    _ ≤ x * 2 ^ e / 2 ^ 53 := by
      rw [mul_div_right_comm]
      refine mul_le_mul_of_nonneg_right ?_ hunit.le
      rw [le_div_iff₀ (by positivity)]
      linarith

/-- Rounding moves a number of moderate size by little. -/
theorem abs_sub_le_of_le (h : IsNearest r q) (hlow : 0 ≤ q) (hhigh : q ≤ 2 ^ 20) :
    |r - q| ≤ 1 / 10 ^ 7 := by
  rcases le_or_gt (1 / 10 ^ 7) q with hlarge | hsmall
  · have hnormal : (2 : ℚ) ^ (-1022 : ℤ) ≤ q :=
      calc (2 : ℚ) ^ (-1022 : ℤ) ≤ 2 ^ (-24 : ℤ) := zpow_le_zpow_right₀ one_le_two (by norm_num)
        _ ≤ 1 / 10 ^ 7 := by norm_num
        _ ≤ q := hlarge
    refine (h.abs_sub_le hnormal).trans ?_
    calc q / 2 ^ 53 ≤ 2 ^ 20 / 2 ^ 53 := by gcongr
      _ ≤ 1 / 10 ^ 7 := by norm_num
  · have hzero := h.le_of_short isShort_zero
    rw [zero_sub, abs_neg, abs_of_nonneg hlow] at hzero
    exact hzero.trans hsmall.le

/-- A decimal is nearest to one short magnitude only: halfway between two of them the denominator is
a power of two, and a decimal with such a denominator is short itself. -/
theorem eq_of_decimal {k j : ℕ} (h : IsNearest r (k / 10 ^ j))
    (h' : IsNearest r' (k / 10 ^ j)) (hk : k ≤ 2 ^ 53) (hj : j ≤ 1074) : r = r' := by
  obtain ⟨q, hq⟩ : ∃ q : ℚ, q = k / 10 ^ j := ⟨_, rfl⟩
  rw [← hq] at h h'
  have hsame := le_antisymm (h.le_of_short h'.short) (h'.le_of_short h.short)
  rcases abs_eq_abs.1 hsame with heq | hopposite
  · linarith
  · -- Both are equally far away, on different sides, so `q` is their mean. In units of half of the
    -- least bit it is an integer then, and the powers of five in its denominator cancel.
    obtain ⟨least, hleast⟩ : ∃ least : ℕ, least = 1074 := ⟨_, rfl⟩
    obtain ⟨m, e, -, he, hm⟩ := h.short
    obtain ⟨m', e', -, he', hm'⟩ := h'.short
    obtain ⟨a, ha⟩ : ∃ a : ℕ, e = a - least := ⟨(e + least).toNat, by omega⟩
    obtain ⟨a', ha'⟩ : ∃ a' : ℕ, e' = a' - least := ⟨(e' + least).toNat, by omega⟩
    have hsum : (m * 2 ^ a + m' * 2 ^ a' : ℕ) * 10 ^ j = k * 2 ^ (least + 1) := by
      have hcast : ((m * 2 ^ a + m' * 2 ^ a' : ℕ) : ℚ) = (r + r') * 2 ^ least := by
        rw [hm, hm', ha, ha', zpow_sub₀ two_ne_zero, zpow_sub₀ two_ne_zero, zpow_natCast,
          zpow_natCast, zpow_natCast]
        push_cast
        field_simp
      have htwice : r + r' = 2 * (k / 10 ^ j) := by linarith
      have hvalue : ((m * 2 ^ a + m' * 2 ^ a' : ℕ) : ℚ) * 10 ^ j = k * 2 ^ (least + 1) := by
        rw [hcast, htwice, pow_succ]
        field_simp
      exact_mod_cast hvalue
    have hdvd : 5 ^ j ∣ k := by
      have hfive : 5 ^ j ∣ k * 2 ^ (least + 1) := by
        rw [← hsum]
        exact (pow_dvd_pow_of_dvd (by norm_num) j).mul_left _
      exact (Nat.Coprime.pow j (least + 1) (by decide : Nat.Coprime 5 2)).dvd_of_dvd_mul_right hfive
    obtain ⟨n, rfl⟩ := hdvd
    -- What is left of the denominator is a power of two, so the decimal is short.
    have hshort : IsShort q := by
      refine ⟨n, -j, le_trans (Nat.le_mul_of_pos_left n (by positivity)) hk, by omega, ?_⟩
      rw [hq, zpow_neg, zpow_natCast, show (10 : ℚ) = 5 * 2 by norm_num, mul_pow]
      push_cast
      field_simp
    rw [h.eq_of_short hshort, h'.eq_of_short hshort]

end IsNearest

/-- Rounding to an integer with 53 bits in units of the last bit gives a nearest short magnitude.
Below a normal size the last bit is the least one. -/
theorem isNearest_of_near {x : ℚ} {n : ℕ} {e : ℤ} (hn : |(n : ℚ) - x| ≤ 1 / 2) (hx : x < 2 ^ 53)
    (he : -1074 ≤ e) (hnormal : 2 ^ 52 ≤ x ∨ e = -1074) : IsNearest (n * 2 ^ e) (x * 2 ^ e) := by
  have hunit : (0 : ℚ) < 2 ^ e := by positivity
  refine ⟨⟨n, e, le_of_near hn (by exact_mod_cast hx.le), he, rfl⟩, fun {y} hy => ?_⟩
  -- It suffices to look at multiples of the last bit.
  have hmultiple : ∀ k : ℤ, |n * 2 ^ e - x * 2 ^ e| ≤ |k * 2 ^ e - x * 2 ^ e| := by
    intro k
    rw [← sub_mul, ← sub_mul, abs_mul, abs_mul]
    refine mul_le_mul_of_nonneg_right ?_ (abs_nonneg _)
    by_cases hk : k = n
    · rw [hk, Int.cast_natCast]
    · have hone : (1 : ℚ) ≤ |(k : ℚ) - n| := by
        exact_mod_cast Int.one_le_abs (sub_ne_zero.2 hk)
      -- Any other integer is at least one away from `n`, and so one half from `x`.
      have htriangle : |(k : ℚ) - n| ≤ |(k : ℚ) - x| + |(n : ℚ) - x| := by
        rw [abs_sub_comm (n : ℚ) x]
        exact abs_sub_le _ _ _
      linarith
  obtain ⟨m, f, hm, hf, rfl⟩ := hy
  rcases le_or_gt e f with hef | hfe
  · -- A short magnitude with a greater last bit is one of them.
    obtain ⟨d, rfl⟩ := Int.le.dest hef
    have := hmultiple (m * 2 ^ d)
    rw [zpow_add₀ two_ne_zero, zpow_natCast]
    push_cast at this
    rwa [mul_comm (2 ^ e : ℚ), ← mul_assoc]
  · -- One with a smaller last bit is not above the least normal magnitude with this one.
    have hlow : (2 : ℚ) ^ 52 ≤ x := hnormal.resolve_right (by omega)
    have hbelow : (m : ℚ) * 2 ^ f ≤ 2 ^ 52 * 2 ^ e := by
      have hexponent : (2 : ℚ) ^ f ≤ 2 ^ (e - 1) := zpow_le_zpow_right₀ one_le_two (by omega)
      calc (m : ℚ) * 2 ^ f ≤ 2 ^ 53 * 2 ^ (e - 1) :=
            mul_le_mul (by exact_mod_cast hm) hexponent (by positivity) (by positivity)
        _ = 2 ^ 52 * 2 ^ e := by
          rw [zpow_sub_one₀ two_ne_zero]
          ring
    have hleast := hmultiple (2 ^ 52)
    push_cast at hleast
    refine hleast.trans ?_
    have : (2 : ℚ) ^ 52 * 2 ^ e ≤ x * 2 ^ e := mul_le_mul_of_nonneg_right hlow hunit.le
    rw [abs_of_nonpos (by linarith), abs_of_nonpos (by linarith)]
    linarith

/-! ## Mantissas that are shifted -/

open Float.Model Float.Model.UnpackedFloat

/-- Whether a mantissa and the two bits kept of what follows it stand for a magnitude: the whole
part is the mantissa, and the bits compare the rest with zero and one half. -/
def Describes (mantissa : ExtendedMantissa) (x : ℚ) : Prop :=
  match mantissa.roundBit, mantissa.stickyBit with
  | false, false => x = mantissa.mantissa
  | false, true => mantissa.mantissa < x ∧ x < mantissa.mantissa + 1 / 2
  | true, false => x = mantissa.mantissa + 1 / 2
  | true, true => mantissa.mantissa + 1 / 2 < x ∧ x < mantissa.mantissa + 1

namespace Describes

variable {mantissa : ExtendedMantissa} {x : ℚ}

/-- Halving moves the last bit of the mantissa into what is kept of the rest. -/
theorem shiftRightOne (h : Describes mantissa x) : Describes mantissa.shiftRightOne (x / 2) := by
  obtain ⟨m, roundBit, stickyBit⟩ := mantissa
  have hparts : (m : ℚ) = 2 * (m / 2 : ℕ) + (m % 2 : ℕ) := by exact_mod_cast (Nat.div_add_mod m 2).symm
  -- The last bit of the mantissa becomes the first one of the rest.
  rcases Nat.mod_two_eq_zero_or_one m with hmod | hmod
  · rw [hmod, Nat.cast_zero, add_zero] at hparts
    have hbit : (m % 2 != 0) = false := by rw [hmod]; rfl
    cases roundBit <;> cases stickyBit <;>
      simp only [Describes, ExtendedMantissa.shiftRightOne, hbit, Bool.or_false, Bool.or_true]
        at h ⊢ <;>
      first | linarith | (constructor <;> linarith)
  · rw [hmod, Nat.cast_one] at hparts
    have hbit : (m % 2 != 0) = true := by rw [hmod]; rfl
    cases roundBit <;> cases stickyBit <;>
      simp only [Describes, ExtendedMantissa.shiftRightOne, hbit, Bool.or_false, Bool.or_true]
        at h ⊢ <;>
      first | linarith | (constructor <;> linarith)

/-- A shift to the right by `n` bits divides by `2 ^ n`. -/
theorem shiftRight (h : Describes mantissa x) (n : ℕ) : Describes (mantissa >>> n) (x / 2 ^ n) := by
  show Describes (n.repeat ExtendedMantissa.shiftRightOne mantissa) (x / 2 ^ n)
  induction n with
  | zero => simpa [Nat.repeat] using h
  | succ n ih =>
    rw [Nat.repeat, pow_succ, ← div_div]
    exact ih.shiftRightOne

/-- A shift to the right is a change to greater units. -/
theorem shiftRight_mul {k : ℕ} (h : Describes mantissa (x * 2 ^ k)) :
    Describes (mantissa >>> k) x := by
  have hpower : (2 : ℚ) ^ k ≠ 0 := pow_ne_zero k two_ne_zero
  simpa only [mul_div_cancel_right₀ x hpower] using h.shiftRight k

/-- A described magnitude is within half a unit of the mantissa that it is rounded to. -/
theorem roundedMantissa_near (h : Describes mantissa x) :
    |(mantissa.roundedMantissa : ℚ) - x| ≤ 1 / 2 := by
  obtain ⟨m, roundBit, stickyBit⟩ := mantissa
  have hmod : (0 : ℚ) ≤ (m % 2 : ℕ) ∧ ((m % 2 : ℕ) : ℚ) ≤ 1 := by
    have hle : m % 2 ≤ 1 := by omega
    exact ⟨by positivity, by exact_mod_cast hle⟩
  rw [abs_le]
  cases roundBit <;> cases stickyBit <;>
    simp only [Describes, ExtendedMantissa.roundedMantissa, ExtendedMantissa.accuracy,
      Accuracy.roundToNearestEven, Nat.cast_add, Nat.cast_one] at h ⊢ <;>
    constructor <;> linarith

/-- The mantissa is the whole part of what is described, so it is not above it. -/
theorem le (h : Describes mantissa x) : mantissa.mantissa ≤ x := by
  obtain ⟨m, roundBit, stickyBit⟩ := mantissa
  cases roundBit <;> cases stickyBit <;> simp only [Describes] at h <;> linarith

/-- The mantissa is the whole part of what is described, so one more is above it. -/
theorem lt (h : Describes mantissa x) : x < mantissa.mantissa + 1 := by
  obtain ⟨m, roundBit, stickyBit⟩ := mantissa
  cases roundBit <;> cases stickyBit <;> simp only [Describes] at h <;> linarith

/-- A mantissa of at most `bits + k` bits is below `2 ^ bits` in units of `2 ^ k`. -/
theorem lt_of_log2_lt {bits k : ℕ} (h : Describes mantissa (x * 2 ^ k))
    (hlog : mantissa.mantissa.log2 < bits + k) : x < 2 ^ bits := by
  have hmantissa : mantissa.mantissa + 1 ≤ 2 ^ (bits + k) :=
    Nat.lt_log2_self.trans_le (Nat.pow_le_pow_right two_pos hlog)
  have hlt : x * 2 ^ k < 2 ^ bits * 2 ^ k := by
    rw [← pow_add]
    exact h.lt.trans_le (by exact_mod_cast hmantissa)
  exact lt_of_mul_lt_mul_right hlt (by positivity)

/-- A mantissa whose first bit is bit `bits + k` is at least `2 ^ bits` in units of `2 ^ k`. -/
theorem le_of_log2_eq {bits k : ℕ} (h : Describes mantissa (x * 2 ^ k)) (hbits : 0 < bits)
    (hlog : mantissa.mantissa.log2 = bits + k) : 2 ^ bits ≤ x := by
  have hmantissa : 2 ^ (bits + k) ≤ mantissa.mantissa := by
    rw [← hlog]
    refine Nat.log2_self_le fun hzero => ?_
    rw [hzero, Nat.log2_zero] at hlog
    omega
  have hle : (2 : ℚ) ^ bits * 2 ^ k ≤ x * 2 ^ k := by
    rw [← pow_add]
    exact le_trans (by exact_mod_cast hmantissa) h.le
  exact le_of_mul_le_mul_right hle (by positivity)

end Describes

/-! ## Results that are rounded -/

/-- The mantissas and exponents that finite numbers are stored with. -/
structure IsStored (m : ℕ) (e : ℤ) : Prop where
  lt : m < 2 ^ 53
  le : -1074 ≤ e
  normal : 2 ^ 52 ≤ m ∨ e = -1074

/-- The exponent that a mantissa is shifted to, with the constants of the format put in. -/
theorem targetExponent_eq (m : ℕ) (e : ℤ) :
    Format.binary64.targetExponent (totalExponent m e) = max (m.log2 + e - 52) (-1074) := by
  have hmin : Format.binary64.minExponent = -1074 := rfl
  have hbits : (Format.binary64.mantissaBits : ℤ) = 53 := rfl
  rw [Format.targetExponent, totalExponent, hmin, hbits]
  omega

/-- Whatever is known about the rest, the whole part is the mantissa. -/
@[simp]
theorem mantissa_ofMantissaAndAccuracy (m : ℕ) (accuracy : Accuracy) :
    (ExtendedMantissa.ofMantissaAndAccuracy m accuracy).mantissa = m := by
  cases accuracy with
  | exact => rfl
  | inexact ordering => cases ordering <;> rfl

/-- A mantissa is shifted until its last bit is the last of 53 bits, or the least bit that can be
stored. It is never shifted to the left. -/
theorem shiftToTargetExponent_eq {m : ℕ} {e : ℤ} {k : ℕ} (accuracy : Accuracy)
    (hk : (max (m.log2 + e - 52) (-1074) - e).toNat = k) :
    shiftToTargetExponent .binary64 m e accuracy =
      (ExtendedMantissa.ofMantissaAndAccuracy m accuracy >>> k, e + k) := by
  unfold shiftToTargetExponent shiftToExponent
  simp only [targetExponent_eq, hk]

/-- A mantissa that fits is not shifted. -/
theorem shiftToTargetExponent_of_lt {m : ℕ} {e : ℤ} (hm : m < 2 ^ 53) (he : -1074 ≤ e) :
    shiftToTargetExponent .binary64 m e .exact = (⟨m, false, false⟩, e) := by
  have hlog : m.log2 ≤ 52 := by
    by_cases hzero : m = 0
    · rw [hzero]
      decide
    · exact Nat.lt_succ_iff.1 ((Nat.log2_lt hzero).2 hm)
  rw [shiftToTargetExponent_eq (k := 0) .exact (by omega), Nat.cast_zero, add_zero]
  rfl

/-- The least mantissa that does not fit is halved. -/
theorem shiftToTargetExponent_two_pow {e : ℤ} (he : -1074 ≤ e) :
    shiftToTargetExponent .binary64 (2 ^ 53) e .exact = (⟨2 ^ 52, false, false⟩, e + 1) := by
  rw [shiftToTargetExponent_eq (k := 1) .exact (by rw [Nat.log2_two_pow]; omega)]
  rfl

/-- A second shift only halves a mantissa that was rounded up to `2 ^ 53`, so what is stored has the
value that the first shift was rounded to. -/
theorem roundWithAccuracy_of_shift (sign : Sign) {m n : ℕ} {e t : ℤ} {accuracy : Accuracy}
    {shifted : ExtendedMantissa}
    (hfirst : shiftToTargetExponent .binary64 m e accuracy = (shifted, t))
    (hn : shifted.roundedMantissa = n) (hle : n ≤ 2 ^ 53) (ht : -1074 ≤ t)
    (hnormal : 2 ^ 52 ≤ n ∨ t = -1074) :
    n = 0 ∧ roundWithAccuracy .binary64 sign m e accuracy = .zero sign ∨
      ∃ (n' : ℕ) (f : ℤ) (hn' : 0 < n'), IsStored n' f ∧ (n' : ℚ) * 2 ^ f = n * 2 ^ t ∧
        roundWithAccuracy .binary64 sign m e accuracy = .finite sign n' f hn' := by
  -- The first shift and its rounding are known, so only the second shift is left.
  have hround : roundWithAccuracy .binary64 sign m e accuracy =
      let second := shiftToTargetExponent .binary64 n t .exact
      if h : second.1.mantissa = 0 then .zero sign
      else .finite sign second.1.mantissa second.2 (Nat.pos_of_ne_zero h) := by
    unfold roundWithAccuracy
    rw [hfirst, ← hn]
  rw [hround]
  rcases hle.lt_or_eq with hlt | rfl
  · rw [shiftToTargetExponent_of_lt hlt ht]
    by_cases hzero : n = 0
    · exact .inl ⟨hzero, dif_pos hzero⟩
    · exact .inr ⟨n, t, Nat.pos_of_ne_zero hzero, ⟨hlt, ht, hnormal⟩, rfl, dif_neg hzero⟩
  · -- Rounding up has carried into bit 54.
    rw [shiftToTargetExponent_two_pow ht]
    refine .inr ⟨2 ^ 52, t + 1, by positivity, ⟨by norm_num, by omega, .inl le_rfl⟩, ?_, rfl⟩
    rw [zpow_add_one₀ two_ne_zero]
    push_cast
    ring

/-- What rounding a described magnitude gives: a nearest short one, as it is stored. -/
theorem roundWithAccuracy_nearest (sign : Sign) {m : ℕ} {e : ℤ} {accuracy : Accuracy} {q : ℚ}
    (h : Describes (.ofMantissaAndAccuracy m accuracy) (q / 2 ^ e))
    (hsize : 52 ≤ m.log2 ∨ e ≤ -1074) :
    IsNearest 0 q ∧ roundWithAccuracy .binary64 sign m e accuracy = .zero sign ∨
      ∃ (n : ℕ) (f : ℤ) (hn : 0 < n), IsStored n f ∧ IsNearest (n * 2 ^ f) q ∧
        roundWithAccuracy .binary64 sign m e accuracy = .finite sign n f hn := by
  obtain ⟨k, hk⟩ : ∃ k, (max (m.log2 + e - 52) (-1074) - e).toNat = k := ⟨_, rfl⟩
  have hfirst := shiftToTargetExponent_eq accuracy hk
  obtain ⟨t, ht⟩ : ∃ t : ℤ, e + k = t := ⟨_, rfl⟩
  rw [ht] at hfirst
  have hmin : -1074 ≤ t := by omega
  -- The exact result in units of the last bit that is kept.
  obtain ⟨x, rfl⟩ : ∃ x, q = x * 2 ^ t :=
    ⟨q / 2 ^ t, (div_mul_cancel₀ q (zpow_ne_zero t two_ne_zero)).symm⟩
  have hunit : x * 2 ^ t / 2 ^ e = x * 2 ^ k := by
    rw [← ht, zpow_add₀ two_ne_zero, zpow_natCast]
    field_simp
  rw [hunit] at h
  -- At most 53 bits are left in front of the point, and exactly 53 unless the least bit is the
  -- unit.
  have hx : x < 2 ^ 53 := h.lt_of_log2_lt (by rw [mantissa_ofMantissaAndAccuracy]; omega)
  have hnormal : 2 ^ 52 ≤ x ∨ t = -1074 := by
    by_cases hleast : t = -1074
    · exact .inr hleast
    · exact .inl (h.le_of_log2_eq (by norm_num) (by rw [mantissa_ofMantissaAndAccuracy]; omega))
  have hnear := h.shiftRight_mul.roundedMantissa_near
  obtain ⟨n, hn⟩ :
      ∃ n, (ExtendedMantissa.ofMantissaAndAccuracy m accuracy >>> k).roundedMantissa = n := ⟨_, rfl⟩
  rw [hn] at hnear
  have hnearest : IsNearest (n * 2 ^ t) (x * 2 ^ t) := isNearest_of_near hnear hx hmin hnormal
  rcases roundWithAccuracy_of_shift sign hfirst hn (le_of_near hnear (by exact_mod_cast hx.le)) hmin
      (hnormal.imp_left fun hx => ge_of_near hnear (by exact_mod_cast hx)) with
    ⟨rfl, hround⟩ | ⟨n', f, hn', hstored, hvalue, hround⟩
  · rw [Nat.cast_zero, zero_mul] at hnearest
    exact .inl ⟨hnearest, hround⟩
  · exact .inr ⟨n', f, hn', hstored, hvalue ▸ hnearest, hround⟩

end CssColor.Binary
