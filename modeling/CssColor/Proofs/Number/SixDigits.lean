import CssColor.Proofs.Number.Exact
import CssColor.Proofs.Token.Spelling
import Mathlib.Data.Int.Log

/-!
# Rationals with six digits

A rational is written with up to six significant digits and up to six places (`Extended.written`).
What is written is off by half of the last place at most, it is written as itself, and it grows with
the rational (`Extended.text_rational`). Where rounding leads into the next decade, which has one
place less, it leads to a power of ten, and that needs no places.
-/

namespace CssColor

open Scalar

namespace Decimal

/-! ## Places -/

/-- The decade of a magnitude is its logarithm, rounded down. -/
theorem decade_eq_log {q : ℚ} (hq : 0 < q) : decade q = Int.log 10 q := by
  obtain ⟨hlow, hhigh⟩ := decade_spec hq
  refine le_antisymm ?_ (Int.lt_add_one_iff.1 ?_)
  · rw [← Int.zpow_le_iff_le_log (by norm_num) hq]
    exact_mod_cast hlow
  · rw [← Int.lt_zpow_iff_log_lt (by norm_num) hq]
    exact_mod_cast hhigh

/-- A greater magnitude is in no lower decade. -/
theorem decade_mono {p q : ℚ} (hp : 0 < p) (hpq : p ≤ q) : decade p ≤ decade q := by
  rw [decade_eq_log hp, decade_eq_log (hp.trans_le hpq)]
  exact Int.log_mono_right hp hpq

/-- The places of a greater magnitude are no more. -/
theorem placesOf_decade_anti {p q : ℚ} (hp : 0 < p) (hpq : p ≤ q) :
    placesOf (decade q) ≤ placesOf (decade p) := by
  have hdecade := decade_mono hp hpq
  unfold placesOf
  omega

/-! ## Rounding to places -/

section Rounding

variable {p q : ℚ}

/-- Rounding to places keeps the order. -/
theorem roundAt_mono (places : ℕ) (hp : 0 ≤ p) (hpq : p ≤ q) :
    roundAt (-places) p ≤ roundAt (-places) q := by
  rcases hpq.eq_or_lt with rfl | hlt
  · exact le_rfl
  · have hp' := (abs_le.1 (roundAt_near places hp)).2
    have hq' := (abs_le.1 (roundAt_near places (hp.trans hpq))).1
    have hscaled : p * 10 ^ places < q * 10 ^ places := by gcongr
    have hstep : (roundAt (-places) p : ℚ) < roundAt (-places) q + 1 := by linarith
    exact Nat.lt_succ_iff.1 (by exact_mod_cast hstep)

/-- Rounding does not lead below an integer. -/
theorem le_roundAt (places : ℕ) {bound : ℕ} (hq : 0 ≤ q) (h : (bound : ℚ) ≤ q) :
    bound * 10 ^ places ≤ roundAt (-places) q := by
  refine Binary.ge_of_near (roundAt_near places hq) ?_
  push_cast
  gcongr

/-- The magnitude that is written of a magnitude. -/
theorem magnitude_ofMagnitude_eq (negative : Bool) (hq : 0 ≤ q) :
    magnitude (ofMagnitude negative q) =
      roundAt (-placesOf (decade q)) q / 10 ^ placesOf (decade q) := by
  by_cases hdigits : roundAt (-placesOf (decade q)) q = 0
  · rw [ofMagnitude_of_digits_eq_zero negative hdigits, hdigits, magnitude_zero, Nat.cast_zero,
      zero_div]
  · rcases hq.eq_or_lt with rfl | hpos
    · have hzero : roundAt (-placesOf (decade 0)) 0 ≤ 0 * 10 ^ placesOf (decade 0) :=
        roundAt_le _ le_rfl Nat.cast_zero.ge
      rw [zero_mul] at hzero
      exact absurd (Nat.le_zero.1 hzero) hdigits
    · rw [ofMagnitude_of_digits_ne_zero negative hpos.ne' hdigits, magnitude_trim]

/-- What is written is off by half of the last place at most. -/
theorem abs_magnitude_ofMagnitude_sub_le (negative : Bool) (hq : 0 ≤ q) :
    |magnitude (ofMagnitude negative q) - q| ≤ 1 / 2 / 10 ^ placesOf (decade q) := by
  have hnear := roundAt_near (placesOf (decade q)) hq
  have hpower : (0 : ℚ) < 10 ^ placesOf (decade q) := by positivity
  rw [magnitude_ofMagnitude_eq negative hq, le_div_iff₀ hpower, ← abs_of_pos hpower, ← abs_mul,
    sub_mul, abs_of_pos hpower, div_mul_cancel₀ _ hpower.ne']
  exact hnear

/-- A greater magnitude is not written as a smaller one. -/
theorem magnitude_ofMagnitude_mono (negative negative' : Bool) (hp : 0 ≤ p) (hpq : p ≤ q) :
    magnitude (ofMagnitude negative p) ≤ magnitude (ofMagnitude negative' q) := by
  have hq := hp.trans hpq
  rw [magnitude_ofMagnitude_eq negative hp, magnitude_ofMagnitude_eq negative' hq]
  rcases hp.eq_or_lt with rfl | hpos
  · rw [← magnitude_ofMagnitude_eq false le_rfl, ofMagnitude_zero, magnitude_zero]
    positivity
  rcases (placesOf_decade_anti hpos hpq).eq_or_lt with hplaces | hplaces
  · rw [hplaces]
    gcongr
    exact roundAt_mono _ hp hpq
  · -- The power of ten between the decades is written as it is.
    obtain ⟨hdecade, hnonneg⟩ := lt_of_placesOf_lt hplaces
    obtain ⟨k, hk⟩ := Int.eq_ofNat_of_zero_le hnonneg
    have hbelow : p ≤ (10 ^ k : ℕ) := by
      refine (decade_spec hpos).2.le.trans ?_
      rw [Nat.cast_pow, Nat.cast_ofNat, ← zpow_natCast]
      exact zpow_le_zpow_right₀ (by norm_num) (by omega)
    have habove : ((10 ^ k : ℕ) : ℚ) ≤ q := by
      refine le_trans ?_ (decade_spec (hpos.trans_le hpq)).1
      rw [Nat.cast_pow, Nat.cast_ofNat, ← zpow_natCast, hk]
    refine le_trans (b := ((10 ^ k : ℕ) : ℚ)) ?_ ?_
    · rw [div_le_iff₀ (by positivity)]
      exact_mod_cast roundAt_le _ hp hbelow
    · rw [le_div_iff₀ (by positivity)]
      exact_mod_cast le_roundAt _ hq habove

/-- What is written of a magnitude has no more places than are written of itself. -/
theorem exists_roundAt_eq_div (hq : 0 < q) (hdigits : roundAt (-placesOf (decade q)) q ≠ 0) {v : ℚ}
    (hv : v = roundAt (-placesOf (decade q)) q / 10 ^ placesOf (decade q)) :
    ∃ n : ℕ, v * 10 ^ placesOf (decade v) = n := by
  have hpos : 0 < v := by
    rw [hv]
    have : (0 : ℚ) < roundAt (-placesOf (decade q)) q := by
      exact_mod_cast Nat.pos_of_ne_zero hdigits
    positivity
  rcases le_or_gt (placesOf (decade q)) (placesOf (decade v)) with hplaces | hplaces
  · -- The value has as many places as it was rounded to, or more.
    obtain ⟨k, hk⟩ := Nat.exists_eq_add_of_le hplaces
    refine ⟨roundAt (-placesOf (decade q)) q * 10 ^ k, ?_⟩
    rw [hk, pow_add, ← mul_assoc]
    nth_rewrite 1 [hv]
    rw [div_mul_cancel₀ _ (by positivity)]
    push_cast
    rfl
  · -- With fewer places it has been rounded up to a power of ten.
    have hsmall : decade q < 5 := by
      unfold placesOf at hplaces
      omega
    obtain ⟨k, hk⟩ := roundAt_eq_pow_of_placesOf_lt hq hsmall hpos hplaces (by
      rw [hv, sub_self, abs_zero]
      norm_num)
    refine ⟨10 ^ k * 10 ^ placesOf (decade v), ?_⟩
    nth_rewrite 1 [hv]
    rw [hk]
    push_cast
    rw [mul_div_cancel_right₀ _ (by positivity)]

/-- What is written of a magnitude is written as itself. -/
theorem ofMagnitude_magnitude (negative : Bool) (hq : 0 ≤ q) :
    ofMagnitude (ofMagnitude negative q).negative (magnitude (ofMagnitude negative q)) =
      ofMagnitude negative q := by
  by_cases hdigits : roundAt (-placesOf (decade q)) q = 0
  · rw [ofMagnitude_of_digits_eq_zero negative hdigits, magnitude_zero, ofMagnitude_zero]
  obtain ⟨v, hv⟩ : ∃ v, v = magnitude (ofMagnitude negative q) := ⟨_, rfl⟩
  have hvalue := magnitude_ofMagnitude_eq negative hq
  rw [← hv] at hvalue ⊢
  have hpos : 0 < q := by
    refine lt_of_le_of_ne hq ?_
    rintro rfl
    rw [ofMagnitude_zero, magnitude_zero] at hv
    rw [hv, eq_comm, div_eq_zero_iff] at hvalue
    exact hdigits (by exact_mod_cast hvalue.resolve_right (by positivity))
  have hvpos : 0 < v := by
    have : (0 : ℚ) < roundAt (-placesOf (decade q)) q := by
      exact_mod_cast Nat.pos_of_ne_zero hdigits
    rw [hvalue]
    positivity
  -- Times the power of ten of its places, the value is a whole number.
  obtain ⟨n, hn⟩ := exists_roundAt_eq_div hpos hdigits hvalue
  have hround : roundAt (-placesOf (decade v)) v = n :=
    roundAt_eq hvpos.le (by rw [hn, sub_self, abs_zero]; norm_num)
  have hmagnitude : magnitude (ofMagnitude (ofMagnitude negative q).negative v) = v := by
    rw [magnitude_ofMagnitude_eq _ hvpos.le, hround, ← hn, mul_div_cancel_right₀ _ (by positivity)]
  refine (isTrimmed_ofMagnitude _ _).eq_of_magnitude_eq (isTrimmed_ofMagnitude _ _) ?_
    (hmagnitude.trans hv)
  rw [negative_ofMagnitude (by rw [hmagnitude]; exact hvpos.ne')]

end Rounding

/-! ## Positional notation -/

/-- Positional notation: an optional minus, a whole number, and maybe a point and digits behind it,
the last of them not zero. -/
def IsPositional (text : String) : Prop :=
  ∃ (negative : Bool) (whole : ℕ) (fraction : List Char),
    text.toList = (if negative then ['-'] else []) ++ Nat.toDigits 10 whole ++
      (if fraction = [] then [] else '.' :: fraction) ∧
    (∀ c ∈ fraction, c.isDigit = true) ∧ fraction.getLast? ≠ some '0'

/-- A decimal without zeros at its end is written in positional notation. -/
theorem IsTrimmed.isPositional {d : Decimal} (h : d.IsTrimmed) : IsPositional d.text := by
  have hsign : d.text.toList =
      (if d.negative then ['-'] else []) ++ d.magnitudeText.toList := by
    unfold Decimal.text
    split
    · rw [String.toList_append]
      rfl
    · rfl
  rcases magnitudeText_eq h.exponent_nonpos with
    ⟨-, htext⟩ | ⟨whole, fraction, hne, hfraction, htext, hdigits, hexponent⟩
  · exact ⟨d.negative, d.digits, [], by rw [hsign, htext, if_pos rfl, List.append_nil],
      fun _ h => absurd h List.not_mem_nil, nofun⟩
  · refine ⟨d.negative, whole, fraction, by rw [hsign, htext, if_neg hne, List.append_assoc],
      hfraction, fun hlast => ?_⟩
    -- The last digit of the fraction is that of all the digits, and is not zero.
    obtain ⟨init, rfl⟩ := List.getLast?_eq_some_iff.1 hlast
    have hzero : d.digits % 10 = 0 := by
      have hdigit : ofDigits ['0'] = 0 := rfl
      rw [← hdigits, ofDigits_append, hdigit, List.length_append, List.length_singleton, pow_succ,
        pow_one, ← mul_assoc]
      omega
    refine h.last_digit ?_ hzero
    rw [hexponent, List.length_append, List.length_singleton]
    omega

end Decimal

namespace Extended

open Decimal

/-! ## Rationals -/

/-- The rational that is written of a rational. -/
def written (n : ℚ) : ℚ :=
  if (decimal (rational n)).negative then -magnitude (decimal (rational n))
  else magnitude (decimal (rational n))

/-- How many places are written of a rational at most. -/
def places (n : ℚ) : ℕ := (max 0 (min 6 (5 - Int.log 10 |n|))).toNat

variable {m n : ℚ}

/-- The number that is read back is the one that is written. -/
theorem printed_eq_written (n : ℚ) : printed (rational n) = rational (written n) :=
  toNumber_eq _

/-- What is written has the sign of the rational. -/
theorem written_eq (n : ℚ) : written n =
    if n < 0 then -magnitude (ofMagnitude false |n|) else magnitude (ofMagnitude false |n|) := by
  have hdecimal : decimal (rational n) = ofMagnitude (decide (n < 0)) |n| := rfl
  have hmagnitude : magnitude (ofMagnitude (decide (n < 0)) |n|) =
      magnitude (ofMagnitude false |n|) := by
    rw [magnitude_ofMagnitude_eq _ (abs_nonneg n), magnitude_ofMagnitude_eq _ (abs_nonneg n)]
  unfold written
  rw [hdecimal, hmagnitude]
  by_cases hzero : magnitude (ofMagnitude false |n|) = 0
  · rw [hzero, neg_zero, ite_self, ite_self]
  · rw [negative_ofMagnitude (hmagnitude ▸ hzero)]
    simp only [decide_eq_true_eq]

/-- The number that is written is at most half of the last place away. -/
theorem abs_written_sub_le (n : ℚ) : |written n - n| ≤ 1 / 2 / 10 ^ places n := by
  rcases eq_or_ne n 0 with rfl | hne
  · rw [written_eq, if_neg (lt_irrefl 0), abs_zero, ofMagnitude_zero, magnitude_zero, sub_zero,
      abs_zero]
    positivity
  · -- The places are counted from the decade of the magnitude.
    have hplaces : places n = placesOf (decade |n|) := by
      rw [decade_eq_log (abs_pos.2 hne), places, placesOf]
      omega
    have hnear := abs_magnitude_ofMagnitude_sub_le false (abs_nonneg n)
    rw [hplaces, written_eq]
    split
    · next hneg =>
      rw [abs_of_neg hneg] at hnear ⊢
      rwa [← abs_neg, neg_sub, sub_neg_eq_add, add_comm, ← sub_neg_eq_add]
    · next hnonneg =>
      rwa [abs_of_nonneg (not_lt.1 hnonneg)] at hnear ⊢

/-- Writing a number keeps the order. -/
theorem written_mono : Monotone written := by
  intro m n hmn
  rw [written_eq, written_eq]
  split
  · -- Below zero the greater number has the smaller magnitude.
    split
    · next hm hn =>
      refine neg_le_neg (magnitude_ofMagnitude_mono _ _ (abs_nonneg n) ?_)
      rw [abs_of_neg hm, abs_of_neg hn]
      exact neg_le_neg hmn
    · exact (neg_nonpos.2 (magnitude_nonneg _)).trans (magnitude_nonneg _)
  · split
    · next hm hn => exact absurd (hmn.trans_lt hn) hm
    · next hm hn =>
      refine magnitude_ofMagnitude_mono _ _ (abs_nonneg m) ?_
      rwa [abs_of_nonneg (not_lt.1 hm), abs_of_nonneg (not_lt.1 hn)]

/-- What is written of a rational is written in the same way. -/
theorem decimal_written (n : ℚ) : decimal (rational (written n)) = decimal (rational n) := by
  have hdecimal : ∀ q, decimal (rational q) = ofMagnitude (decide (q < 0)) |q| := fun _ => rfl
  have hwritten : written n = if (ofMagnitude (decide (n < 0)) |n|).negative then
      -magnitude (ofMagnitude (decide (n < 0)) |n|)
      else magnitude (ofMagnitude (decide (n < 0)) |n|) := rfl
  have hsame := ofMagnitude_magnitude (decide (n < 0)) (abs_nonneg n)
  obtain ⟨d, hd⟩ : ∃ d, d = ofMagnitude (decide (n < 0)) |n| := ⟨_, rfl⟩
  rw [hdecimal, hdecimal, hwritten, ← hd]
  rw [← hd] at hsame
  rcases (magnitude_nonneg d).eq_or_lt with hzero | hpos
  · rw [← hzero, ofMagnitude_zero] at hsame
    rw [← hzero, neg_zero, ite_self, abs_zero, ofMagnitude_zero, hsame]
  · -- The sign of the value that is written is the sign in front of its digits.
    cases hsign : d.negative with
    | true =>
      rw [if_pos rfl, abs_neg, abs_of_pos hpos, decide_eq_true (neg_lt_zero.2 hpos), ← hsign, hsame]
    | false =>
      rw [if_neg Bool.false_ne_true, abs_of_pos hpos, decide_eq_false (not_lt.2 hpos.le), ← hsign,
        hsame]

/-- A minus stands in front of a decimal that is not zero. -/
theorem text_ne_minusZero (n : ℚ) : Scalar.text (rational n) ≠ "-0" := by
  intro h
  rw [text_eq_decimal_text isFinite_rational] at h
  have hscan := scan_text (isTrimmed_decimal (rational n)).exponent_nonpos
    (⟨rfl, rfl, rfl⟩ : EndsNumeral [])
  rw [h] at hscan
  -- Read back, the text is a zero with a minus sign, and no number is printed with both.
  have hread : Decimal.scan ("-0".toList ++ []) = (⟨true, 0, 0⟩, []) := by decide
  rw [hread] at hscan
  have hdecimal : decimal (rational n) = ofMagnitude (decide (n < 0)) |n| := rfl
  rw [hdecimal, Prod.mk.injEq] at hscan
  have hsign := congrArg negative hscan.1
  have hdigits := congrArg digits hscan.1
  unfold ofMagnitude at hsign hdigits
  dsimp only at hsign hdigits
  split at hsign
  · cases hsign
  · next hne =>
    rw [if_neg hne] at hdigits
    exact hne (.inr hdigits.symm)

/-- A rational is written in positional notation as a single number. What is written is off by half
of the last place at most, it is written in the same way, and it does not get smaller for a greater
rational. -/
theorem text_rational :
    (∀ n : ℚ, Token.scan (Scalar.text (rational n)).toList = [.number (rational (written n))] ∧
      IsPositional (Scalar.text (rational n)) ∧ Scalar.text (rational n) ≠ "-0" ∧
      |written n - n| ≤ 1 / 2 / 10 ^ places n ∧
      Scalar.text (rational (written n)) = Scalar.text (rational n)) ∧
    Monotone written := by
  refine ⟨fun n => ⟨?_, ?_, text_ne_minusZero n, abs_written_sub_le n, ?_⟩, written_mono⟩
  · rw [Token.scan_text isFinite_rational, printed_eq_written]
  · rw [text_eq_decimal_text isFinite_rational]
    exact (isTrimmed_decimal _).isPositional
  · rw [text_eq_decimal_text isFinite_rational, text_eq_decimal_text isFinite_rational,
      decimal_written]

end Extended

end CssColor
