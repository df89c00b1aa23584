import CssColor.Proofs.Number.Byte
import CssColor.Proofs.Number.Extended
import CssColor.Proofs.Number.Numeral
import CssColor.Proofs.Token.LetterCase

/-!
# Exact numbers that are written and read back

The text of a finite number is read as the number that its decimal stands for
(`Scalar.ofText_text`). Without rounding in the arithmetic this is the number itself, if it has up
to six significant digits and up to six places (`Extended.printed_rational`), and the alpha of a
byte stands for the byte (`Extended.exists_alphaOfByte`).
-/

namespace CssColor

open Scalar

/-! ## Reading texts of numbers -/

namespace Decimal

/-- The text of a decimal is read as the decimal, as a whole. -/
theorem ofText?_text {d : Decimal} (h : d.exponent ≤ 0) : ofText? d.text.toList = some d := by
  obtain ⟨c, chars, hchars, hc⟩ := exists_magnitudeText_eq_cons h
  obtain ⟨whole, fraction, after, hwhole, hfraction, hdigits, hexponent⟩ :=
    takeMagnitude_text h (⟨rfl, rfl, rfl⟩ : EndsNumeral [])
  have hsign := takeSign_text h []
  rw [List.append_nil, List.append_nil] at hsign
  rw [List.append_nil] at hwhole
  have hnonempty : whole.isEmpty = false := by
    rw [hchars, takeDigits, List.takeWhile_cons_of_pos hc] at hwhole
    rw [← (Prod.mk.inj hwhole).1]
    rfl
  -- Nothing is left of the text, so a point has digits behind it.
  have hafter : after = [] ∧ fraction = [] ∨
      ∃ rest, after = '.' :: rest ∧ takeDigits rest = (fraction, []) := by
    unfold takeFraction at hfraction
    split at hfraction
    · split at hfraction
      · exact .inr ⟨_, rfl, hfraction⟩
      · cases hfraction
    · exact .inl ⟨(Prod.mk.inj hfraction).2, (Prod.mk.inj hfraction).1.symm⟩
  have hdecimal : (⟨d.negative, ofDigits (whole ++ fraction), -fraction.length⟩ : Decimal) = d := by
    rw [hdigits, ← hexponent]
  unfold ofText?
  rw [hsign]
  dsimp only
  rw [hwhole]
  rcases hafter with ⟨rfl, rfl⟩ | ⟨rest, rfl, hrest⟩
  · simpa [takeExponent, hnonempty] using hdecimal
  · simpa [takeExponent, hnonempty, hrest] using hdecimal

end Decimal

namespace Scalar

variable {K : Type} [Scalar K]

/-- The text of a finite number is read as the number that its decimal stands for. -/
theorem ofText_text {x : K} (h : isFinite x = true) : ofText (text x) = .ok (printed x) := by
  have hexponent := (isTrimmed_decimal x).exponent_nonpos
  obtain ⟨c, chars, hchars, hc⟩ := Decimal.exists_magnitudeText_eq_cons hexponent
  have hsign := Decimal.takeSign_text hexponent []
  rw [List.append_nil, List.append_nil, hchars] at hsign
  -- No name starts with a digit.
  have hname : ∀ {name : String} {first : Char}, name.toList.head? = some first →
      first.isDigit = false → String.ofList ((c :: chars).map Char.toLower) ≠ name := by
    rintro name first hfirst hletter rfl
    rw [String.toList_ofList, List.map_cons, List.head?_cons, Option.some.injEq,
      Token.toLower_of_isDigit hc] at hfirst
    rw [← hfirst, hc] at hletter
    cases hletter
  unfold ofText
  rw [text_eq_decimal_text h, hsign, Decimal.ofText?_text hexponent]
  dsimp only
  split
  · next heq => exact absurd heq (hname rfl rfl)
  · next heq => exact absurd heq (hname rfl rfl)
  · next heq => exact absurd heq (hname rfl rfl)
  · rfl

end Scalar

/-! ## Numbers without rounding -/

/-- A rational with up to six significant digits and up to six places. -/
def IsPrintable (q : ℚ) : Prop :=
  ∃ (digits : ℕ) (exponent : ℤ), digits < 10 ^ 6 ∧ -6 ≤ exponent ∧ |q| = digits * 10 ^ exponent

namespace Decimal

/-- Only zero loses its sign. -/
theorem negative_ofMagnitude {negative : Bool} {x : ℚ}
    (h : magnitude (ofMagnitude negative x) ≠ 0) :
    (ofMagnitude negative x).negative = negative := by
  unfold ofMagnitude at h ⊢
  dsimp only at h ⊢
  split
  · next hzero =>
    rw [if_pos hzero, magnitude_zero] at h
    exact absurd rfl h
  · rw [withPlaces, trim_places]

/-- A printable magnitude is not rounded. -/
theorem magnitude_ofMagnitude (negative : Bool) {x : ℚ} (h : IsPrintable x) (hx : 0 ≤ x) :
    magnitude (ofMagnitude negative x) = x := by
  rcases hx.eq_or_lt with rfl | hpos
  · rw [ofMagnitude_zero, magnitude_zero]
  obtain ⟨digits, exponent, hdigits, hexponent, hvalue⟩ := h
  rw [abs_of_pos hpos] at hvalue
  obtain ⟨hlow, -⟩ := decade_spec hpos
  -- Where the places do not reach the exponent, the digits do not reach the decade.
  have hreach : 0 ≤ exponent + placesOf (decade x) := by
    by_contra hneg
    have hdecade : 6 + exponent ≤ decade x := by
      unfold placesOf at hneg
      omega
    have hsize : x < 10 ^ (6 + exponent) := by
      rw [hvalue, zpow_add₀ (by norm_num)]
      refine mul_lt_mul_of_pos_right ?_ (by positivity)
      exact_mod_cast hdigits
    have hmono : (10 : ℚ) ^ (6 + exponent) ≤ 10 ^ decade x :=
      zpow_le_zpow_right₀ (by norm_num) hdecade
    linarith
  obtain ⟨places, hplaces⟩ : ∃ places, places = placesOf (decade x) := ⟨_, rfl⟩
  rw [← hplaces] at hreach
  obtain ⟨shift, hshift⟩ := Int.eq_ofNat_of_zero_le hreach
  have hscaled : x * 10 ^ places = (digits * 10 ^ shift : ℕ) := by
    rw [hvalue, mul_assoc, ← zpow_natCast, ← zpow_add₀ (by norm_num), hshift]
    push_cast
    rw [zpow_natCast]
  rw [hplaces] at hscaled
  have hround : roundAt (-placesOf (decade x)) x = digits * 10 ^ shift :=
    roundAt_eq hx (by rw [hscaled, sub_self, abs_zero]; norm_num)
  have hvalue' : (roundAt (-placesOf (decade x)) x : ℚ) / 10 ^ placesOf (decade x) = x := by
    rw [hround, ← hscaled, mul_div_cancel_right₀ _ (by positivity)]
  have hne : roundAt (-placesOf (decade x)) x ≠ 0 := by
    intro hzero
    rw [hzero, Nat.cast_zero, zero_div] at hvalue'
    exact hpos.ne hvalue'
  rw [ofMagnitude_of_digits_ne_zero negative hpos.ne' hne, magnitude_trim, hvalue']

end Decimal

namespace Extended

variable {a : ℚ}

open Decimal

/-- A decimal is read as the rational that it stands for. -/
theorem toNumber_eq (d : Decimal) :
    (d.toNumber : Extended) = rational (if d.negative then -magnitude d else magnitude d) := by
  have hliteral : (OfScientific.ofScientific d.digits (decide (d.exponent < 0))
      d.exponent.natAbs : ℚ) = magnitude d := by
    unfold magnitude
    -- A literal divides by the power of ten behind a point, and multiplies by it otherwise.
    by_cases h : d.exponent < 0
    · obtain ⟨places, hplaces⟩ : ∃ places : ℕ, d.exponent = -places :=
        ⟨d.exponent.natAbs, by omega⟩
      rw [decide_eq_true h, hplaces, Int.natAbs_neg, Int.natAbs_natCast, zpow_neg, zpow_natCast,
        ← div_eq_mul_inv]
      exact (Rat.ofScientific_true_def).trans (by rw [Rat.mkRat_eq_div]; push_cast; rfl)
    · obtain ⟨zeros, hzeros⟩ : ∃ zeros : ℕ, d.exponent = zeros := ⟨d.exponent.natAbs, by omega⟩
      rw [decide_eq_false h, hzeros, Int.natAbs_natCast, zpow_natCast]
      exact (Rat.ofScientific_false_def).trans (by push_cast; rfl)
  have hnumber : (d.toNumber : Extended) = if d.negative then
      -rational (OfScientific.ofScientific d.digits (decide (d.exponent < 0)) d.exponent.natAbs)
      else rational (OfScientific.ofScientific d.digits (decide (d.exponent < 0))
        d.exponent.natAbs) := rfl
  rw [hnumber, hliteral]
  split <;> rfl

/-- A printable number is read back as itself. -/
theorem printed_rational (h : IsPrintable a) : printed (rational a) = rational a := by
  have hdecimal : decimal (rational a) = ofMagnitude (decide (a < 0)) |a| := rfl
  have habs : IsPrintable |a| := by rwa [IsPrintable, abs_abs]
  have hmagnitude := magnitude_ofMagnitude (decide (a < 0)) habs (abs_nonneg a)
  rw [printed, toNumber_eq, hdecimal, hmagnitude]
  rcases eq_or_ne a 0 with rfl | hne
  · rw [abs_zero, neg_zero, ite_self]
  · rw [negative_ofMagnitude (by rwa [hmagnitude, abs_ne_zero])]
    by_cases ha : a < 0
    · rw [decide_eq_true ha, if_pos rfl, abs_of_neg ha, neg_neg]
    · rw [decide_eq_false ha, if_neg Bool.false_ne_true, abs_of_nonneg (not_lt.1 ha)]

/-! ## Bytes -/

/-- A number that is not negative is rounded to a nearest integer. -/
theorem exists_round (h : 0 ≤ a) :
    ∃ n : ℕ, Scalar.round (rational a) = rational n ∧ |(n : ℚ) - a| ≤ 1 / 2 := by
  have hround : Scalar.round (rational a) = rational (roundHalfUp |a|) := by
    have hsign : decide (a < 0) = false := decide_eq_false (not_lt.2 h)
    show rational (if decide (a < 0) then -roundHalfUp |a| else roundHalfUp |a|) = _
    rw [hsign, if_neg Bool.false_ne_true]
  -- Rounding is the floor half a unit further up.
  have hfloor : 0 ≤ ⌊a + 1 / 2⌋ := Int.floor_nonneg.2 (by linarith)
  obtain ⟨n, hn⟩ := Int.eq_ofNat_of_zero_le hfloor
  have hlow := Int.floor_le (a + 1 / 2)
  have hhigh := Int.lt_floor_add_one (a + 1 / 2)
  rw [hn, Int.cast_natCast] at hlow hhigh
  refine ⟨n, ?_, ?_⟩
  · rw [hround, abs_of_nonneg h]
    show rational ((⌊a + 1 / 2⌋ : ℤ) : ℚ) = _
    rw [hn, Int.cast_natCast]
  · rw [abs_le]
    constructor <;> linarith

/-- An integer that is nearer than one half is what a number is rounded to. -/
theorem round_eq {n : ℕ} (h : 0 ≤ a) (hn : |a - n| < 1 / 2) :
    Scalar.round (rational a) = rational n := by
  obtain ⟨m, hm, hnear⟩ := exists_round h
  rw [hm, Binary.eq_of_near hnear hn]

/-- The quotient of a byte, rounded to some places. -/
theorem exists_places {n j : ℕ} (hn : n ≤ 255) {scale : Extended}
    (hscale : scale = rational (10 ^ j)) : ∃ k : ℕ, (k : ℚ) / 10 ^ j ≤ 1 ∧
      |(k : ℚ) / 10 ^ j * 255 - n| ≤ 1 / 2 / 10 ^ j * 255 ∧
      Scalar.round (rational n / 255.0 * scale) / scale = rational (k / 10 ^ j) := by
  have hpos : (0 : ℚ) < 10 ^ j := by positivity
  -- The scaled quotient is at most the power of ten, so that rounding does not lead past it.
  have hle : (n : ℚ) / 255 * 10 ^ j ≤ (10 ^ j : ℕ) := by
    have hquotient : (n : ℚ) / 255 ≤ 1 := (div_le_one (by norm_num)).2 (by exact_mod_cast hn)
    push_cast
    exact mul_le_of_le_one_left hpos.le hquotient
  obtain ⟨k, hk, hnear⟩ := exists_round (a := (n : ℚ) / 255 * 10 ^ j) (by positivity)
  refine ⟨k, ?_, ?_, ?_⟩
  · rw [div_le_one hpos]
    exact_mod_cast Binary.le_of_near hnear hle
  · have hvalue : (k : ℚ) / 10 ^ j * 255 - n = (k - n / 255 * 10 ^ j) / 10 ^ j * 255 := by
      field_simp
    rw [hvalue, abs_mul, abs_div, abs_of_pos hpos, abs_of_pos (by norm_num : (0 : ℚ) < 255)]
    gcongr
  · rw [hscale, byteMax_eq, rational_div (by norm_num), rational_mul, hk, rational_div hpos.ne']

/-- The alpha of a byte has up to three places and is rounded to the byte. -/
theorem exists_alphaOfByte {n : ℕ} (hn : n ≤ 255) : ∃ k j : ℕ, j ≤ 3 ∧ (k : ℚ) / 10 ^ j ≤ 1 ∧
    alphaOfByte (rational n) = rational (k / 10 ^ j) ∧
      Scalar.round (rational (k / 10 ^ j) * 255.0) = rational n := by
  have hhundred : (100.0 : Extended) = rational (10 ^ 2) := congrArg rational (by norm_num)
  have hthousand : (1000.0 : Extended) = rational (10 ^ 3) := congrArg rational (by norm_num)
  obtain ⟨k, hk, -, hvalue⟩ := exists_places hn hhundred
  unfold alphaOfByte
  dsimp only
  rw [hvalue]
  -- Two places are enough if they lead back to the byte, and three always do.
  split
  · next htest =>
    refine ⟨k, 2, by norm_num, hk, rfl, ?_⟩
    obtain ⟨m, hm, -⟩ := exists_round (a := (k : ℚ) / 10 ^ 2 * 255) (by positivity)
    rw [byteMax_eq, rational_mul, hm] at htest ⊢
    rw [rational_beq_iff.1 htest]
  · obtain ⟨k, hk, hclose, hvalue⟩ := exists_places hn hthousand
    refine ⟨k, 3, le_rfl, hk, hvalue, ?_⟩
    rw [byteMax_eq, rational_mul]
    exact round_eq (by positivity) (hclose.trans_lt (by norm_num))

/-- What has up to three places and is not above one is printable. -/
theorem isPrintable_places {k j : ℕ} (hj : j ≤ 3) (hk : (k : ℚ) / 10 ^ j ≤ 1) :
    IsPrintable (k / 10 ^ j) := by
  rw [div_le_one (by positivity)] at hk
  have hbound : k ≤ 10 ^ j := by exact_mod_cast hk
  have hpower : 10 ^ j ≤ 10 ^ 3 := Nat.pow_le_pow_right (by norm_num) hj
  refine ⟨k, -j, by omega, by omega, ?_⟩
  rw [abs_of_nonneg (by positivity), zpow_neg, zpow_natCast, div_eq_mul_inv]

/-- An alpha is rounded to a byte. -/
theorem exists_byte_of_alpha (a : ℚ) : ∃ n : ℕ, n ≤ 255 ∧
    Scalar.round (Number.clamp 0.0 1.0 (rational a) * 255.0) = rational n := by
  obtain ⟨b, hb, hlow, hhigh⟩ := between_clamp zero_le_one a
  obtain ⟨n, hn, hnear⟩ := exists_round (a := b * 255) (by positivity)
  refine ⟨n, Binary.le_of_near hnear (by push_cast; linarith), ?_⟩
  rw [zero_eq, one_eq, hb, byteMax_eq, rational_mul, hn]

end Extended

end CssColor
