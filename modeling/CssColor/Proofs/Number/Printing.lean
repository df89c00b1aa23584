import CssColor.Proofs.Number.Decimal
import CssColor.Proofs.Number.Double

/-!
# Numbers that are written and read back

A finite number is written as a decimal (`Scalar.decimal`) with up to six significant digits. The
number that the decimal reads back as is in general another one, but it is written as the same
decimal (`Double.HasValue.exists_hasValue_printed`): the error of reading is far below the last
digit, also where rounding has led into the next decade.
-/

namespace CssColor

/-! ## The decimal of a number -/

/-- The decimal that a magnitude is written as. Zero has no sign. -/
def Decimal.ofMagnitude (negative : Bool) (magnitude : ℚ) : Decimal :=
  let d := (withPlaces (Scalar.placesOf (decade magnitude)) negative magnitude).trim
  if magnitude = 0 ∨ d.digits = 0 then ⟨false, 0, 0⟩ else d

namespace Scalar

variable {K : Type} [Scalar K]

/-- The decimal that a finite number is written as. -/
def decimal (x : K) : Decimal :=
  match exact x with
  | .finite negative magnitude => Decimal.ofMagnitude negative magnitude
  | _ => ⟨false, 0, 0⟩

/-- The number that the text of a finite number reads back as. -/
def printed (x : K) : K := (decimal x).toNumber

/-- The text of a finite number is that of its decimal. -/
theorem text_eq_decimal_text {x : K} (h : isFinite x = true) : text x = (decimal x).text := by
  unfold isFinite at h
  unfold text decimal
  cases hexact : exact x with
  | nan => rw [hexact] at h; cases h
  | infinite => rw [hexact] at h; cases h
  | finite negative magnitude =>
    simp only [finiteText, Decimal.ofMagnitude]
    split
    · next hzero => rw [if_pos (.inl hzero)]; rfl
    · next hzero =>
      split
      · next hdigits => rw [if_pos (.inr hdigits)]; rfl
      · next hdigits => rw [if_neg (not_or.2 ⟨hzero, hdigits⟩)]

end Scalar

namespace Decimal

open Binary Scalar

/-! ## Places -/

/-- No number is written with more than six decimal places. -/
theorem placesOf_le (decade : ℤ) : placesOf decade ≤ 6 := by
  unfold placesOf
  omega

/-- Fewer places are those of a greater decade, which is not below one. -/
theorem lt_of_placesOf_lt {decade decade' : ℤ} (h : placesOf decade' < placesOf decade) :
    decade < decade' ∧ 0 ≤ decade' := by
  unfold placesOf at h
  omega

/-- The decimal of a magnitude is known by an integer that is nearer than one half. -/
theorem roundAt_eq {places n : ℕ} {x : ℚ} (hx : 0 ≤ x) (h : |x * 10 ^ places - n| < 1 / 2) :
    roundAt (-places) x = n := by
  exact eq_of_near (roundAt_near places hx) h

/-- Rounding does not lead past an integer. -/
theorem roundAt_le (places : ℕ) {bound : ℕ} {x : ℚ} (hx : 0 ≤ x) (h : x ≤ bound) :
    roundAt (-places) x ≤ bound * 10 ^ places := by
  refine le_of_near (roundAt_near places hx) ?_
  push_cast
  exact mul_le_mul_of_nonneg_right h (by positivity)

/-- With places there are up to six digits. -/
theorem roundAt_le_of_decade_lt {q : ℚ} (hq : 0 < q) (hdecade : decade q < 5) (places : ℕ) :
    roundAt (-places) q ≤ 10 ^ 5 * 10 ^ places := by
  refine roundAt_le places hq.le ((decade_spec hq).2.le.trans ?_)
  calc (10 : ℚ) ^ (decade q + 1) ≤ 10 ^ (5 : ℤ) := zpow_le_zpow_right₀ (by norm_num) (by omega)
    _ = (10 ^ 5 : ℕ) := by norm_num

/-! ## Reading back -/

/-- A large magnitude is written without places, as a number that is read back exactly. -/
theorem isShort_roundAt_zero {q : ℚ} (hq : IsShort q) : IsShort (roundAt (-(0 : ℕ)) q) := by
  have hnear := roundAt_near 0 hq.nonneg
  rw [pow_zero, mul_one] at hnear
  rcases le_or_gt q (2 ^ 53 : ℕ) with hle | hgt
  · exact isShort_natCast (le_of_near hnear hle)
  · -- From here on the short magnitudes are integers.
    obtain ⟨m, e, hm, he, hvalue⟩ := hq
    -- A negative exponent would leave the magnitude below the bound.
    have hexponent : 0 ≤ e := by
      by_contra hneg
      have hpower : (2 : ℚ) ^ e ≤ 1 := zpow_le_one_of_nonpos₀ one_le_two (by omega)
      have : (m : ℚ) * 2 ^ e ≤ (2 ^ 53 : ℕ) * 1 :=
        mul_le_mul (by exact_mod_cast hm) hpower (by positivity) (by positivity)
      linarith
    obtain ⟨k, rfl⟩ := Int.eq_ofNat_of_zero_le hexponent
    have hinteger : q = (m * 2 ^ k : ℕ) := by
      rw [hvalue, zpow_natCast]
      push_cast
      rfl
    have hround : roundAt (-(0 : ℕ)) q = m * 2 ^ k := by
      refine roundAt_eq (hinteger ▸ by positivity) ?_
      rw [pow_zero, mul_one, hinteger, sub_self, abs_zero]
      norm_num
    rw [hround, ← hinteger]
    exact ⟨m, k, hm, he, hvalue⟩

/-- What a decimal of six places reads back as is off by a fraction of the last place. -/
theorem abs_sub_le_of_isNearest {r v : ℚ} (hr : IsNearest r v) (hlow : 1 / 10 ^ 6 ≤ v)
    (hhigh : v ≤ 10 ^ 5) : |r - v| ≤ 10 ^ 5 / 2 ^ 53 := by
  have hnormal : (2 : ℚ) ^ (-1022 : ℤ) ≤ v :=
    calc (2 : ℚ) ^ (-1022 : ℤ) ≤ 2 ^ (-20 : ℤ) := zpow_le_zpow_right₀ one_le_two (by norm_num)
      _ ≤ 1 / 10 ^ 6 := by norm_num
      _ ≤ v := hlow
  refine (hr.abs_sub_le hnormal).trans ?_
  gcongr

section ReadingBack

variable {q r : ℚ} {places places' : ℕ}

/-- Where the number read back has fewer places than the decimal, it is a power of ten that rounding
has led to. -/
theorem roundAt_eq_pow_of_placesOf_lt (hq : 0 < q) (hhigh : decade q < 5) (hr : 0 < r)
    (hplaces : placesOf (decade r) < placesOf (decade q))
    (hnear : |r - roundAt (-placesOf (decade q)) q / 10 ^ placesOf (decade q)| < 1 / 10 ^ 6) :
    ∃ k, roundAt (-placesOf (decade q)) q = 10 ^ k * 10 ^ placesOf (decade q) := by
  -- Between the two decades lies a power of ten.
  obtain ⟨hdecade, hnonneg⟩ := lt_of_placesOf_lt hplaces
  obtain ⟨k, hk⟩ : ∃ k : ℕ, (k : ℤ) = max (decade q + 1) 0 := ⟨_, Int.toNat_of_nonneg (by omega)⟩
  have hqk : q ≤ (10 ^ k : ℕ) := by
    refine (decade_spec hq).2.le.trans ?_
    rw [Nat.cast_pow, Nat.cast_ofNat, ← zpow_natCast]
    exact zpow_le_zpow_right₀ (by norm_num) (by omega)
  have hrk : ((10 ^ k : ℕ) : ℚ) ≤ r := by
    refine le_trans ?_ (decade_spec hr).1
    rw [Nat.cast_pow, Nat.cast_ofNat, ← zpow_natCast]
    exact zpow_le_zpow_right₀ (by norm_num) (by omega)
  have hle := roundAt_le (placesOf (decade q)) hq.le hqk
  refine ⟨k, le_antisymm hle (not_lt.1 fun hlt => ?_)⟩
  -- A decimal below the power of ten would be a whole last place below it.
  have hsix := placesOf_le (decade q)
  generalize placesOf (decade q) = places at *
  generalize roundAt (-(places : ℤ)) q = digits at *
  have hpower : (0 : ℚ) < 10 ^ places := by positivity
  have hstep : ((digits + 1 : ℕ) : ℚ) / 10 ^ places ≤ (10 ^ k : ℕ) := by
    rw [div_le_iff₀ hpower]
    exact_mod_cast hlt
  have hunit : (1 : ℚ) / 10 ^ 6 ≤ 1 / 10 ^ places :=
    one_div_le_one_div_of_le hpower (pow_le_pow_right₀ (by norm_num) hsix)
  rw [Nat.cast_add, Nat.cast_one, add_div] at hstep
  have := (abs_lt.1 hnear).2
  linarith

/-- The decimal of the number read back has the digits of the decimal that was written, and maybe
some zeros behind them. -/
theorem roundAt_of_isNearest (hq : 0 < q) (hshort : IsShort q)
    (hdigits : roundAt (-placesOf (decade q)) q ≠ 0)
    (hr : IsNearest r (roundAt (-placesOf (decade q)) q / 10 ^ placesOf (decade q))) :
    0 < r ∧ (roundAt (-placesOf (decade r)) r : ℚ) / 10 ^ placesOf (decade r) =
      roundAt (-placesOf (decade q)) q / 10 ^ placesOf (decade q) := by
  -- Where a digit is left, the decimal is at least one unit of the last place.
  have hpos : (0 : ℚ) < roundAt (-placesOf (decade q)) q := by
    exact_mod_cast Nat.pos_of_ne_zero hdigits
  have hsix := placesOf_le (decade q)
  obtain ⟨v, hv⟩ : ∃ v : ℚ, v = roundAt (-placesOf (decade q)) q / 10 ^ placesOf (decade q) :=
    ⟨_, rfl⟩
  rw [← hv] at hr ⊢
  -- It is enough that the value of the decimal is an integer of the other places.
  have hdone : ∀ n : ℕ, v * 10 ^ placesOf (decade r) = n →
      |r * 10 ^ placesOf (decade r) - v * 10 ^ placesOf (decade r)| < 1 / 2 →
      (roundAt (-placesOf (decade r)) r : ℚ) / 10 ^ placesOf (decade r) = v := by
    intro n hn hnear
    rw [hn] at hnear
    rw [roundAt_eq hr.short.nonneg hnear, ← hn, mul_div_cancel_right₀ _ (by positivity)]
  rcases le_or_gt 5 (decade q) with hlarge | hsmall
  · -- Without places the number is read back exactly.
    have hplaces : placesOf (decade q) = 0 := by
      unfold placesOf
      omega
    rw [hplaces, pow_zero, div_one] at hv
    have hexact : r = v := hr.eq_of_short (hv ▸ isShort_roundAt_zero hshort)
    rw [hplaces] at hpos
    refine ⟨hexact ▸ hv ▸ hpos, hdone (roundAt (-(0 : ℕ)) q * 10 ^ placesOf (decade r)) ?_ ?_⟩
    · rw [hv]
      push_cast
      rfl
    · rw [hexact, sub_self, abs_zero]
      norm_num
  · have hle := roundAt_le_of_decade_lt hq hsmall (placesOf (decade q))
    have hlow : 1 / 10 ^ 6 ≤ v := by
      rw [hv]
      exact div_le_div₀ hpos.le (by exact_mod_cast Nat.pos_of_ne_zero hdigits) (by positivity)
        (pow_le_pow_right₀ (by norm_num) hsix)
    have hhigh : v ≤ 10 ^ 5 := by
      rw [hv, div_le_iff₀ (by positivity)]
      exact_mod_cast hle
    -- The error of reading is below half a unit of the sixth decimal place.
    have herror := abs_sub_le_of_isNearest hr hlow hhigh
    have hrpos : 0 < r := by
      have := (abs_le.1 herror).1
      have : (10 : ℚ) ^ 5 / 2 ^ 53 < 1 / 10 ^ 6 := by norm_num
      linarith
    -- With no less places than before the decimal gets zeros at its end, and with less it is a
    -- power of ten.
    have hinteger : ∃ n : ℕ, v * 10 ^ placesOf (decade r) = n := by
      rcases le_or_gt (placesOf (decade q)) (placesOf (decade r)) with hplaces | hplaces
      · obtain ⟨k, hk⟩ := Nat.exists_eq_add_of_le hplaces
        refine ⟨roundAt (-placesOf (decade q)) q * 10 ^ k, ?_⟩
        rw [hv, hk, pow_add, ← mul_assoc, div_mul_cancel₀ _ (by positivity)]
        push_cast
        rfl
      · obtain ⟨k, hk⟩ := roundAt_eq_pow_of_placesOf_lt hq hsmall hrpos hplaces
          (hv ▸ herror.trans_lt (by norm_num))
        refine ⟨10 ^ k * 10 ^ placesOf (decade r), ?_⟩
        rw [hv, hk]
        push_cast
        rw [mul_div_cancel_right₀ _ (by positivity)]
    obtain ⟨n, hn⟩ := hinteger
    refine ⟨hrpos, hdone n hn ?_⟩
    have hpower : (10 : ℚ) ^ placesOf (decade r) ≤ 10 ^ 6 :=
      pow_le_pow_right₀ (by norm_num) (placesOf_le _)
    calc |r * 10 ^ placesOf (decade r) - v * 10 ^ placesOf (decade r)|
        = |r - v| * 10 ^ placesOf (decade r) := by
          rw [← sub_mul, abs_mul, abs_of_pos (a := (10 : ℚ) ^ placesOf (decade r)) (by positivity)]
      _ ≤ 10 ^ 5 / 2 ^ 53 * 10 ^ 6 := mul_le_mul herror hpower (by positivity) (by positivity)
      _ < 1 / 2 := by norm_num

/-! ## The decimal of a magnitude -/

/-- Zeros at the end are dropped, but not the last digit that is not zero. -/
theorem trim_digits_eq_zero_iff (negative : Bool) (digits places : ℕ) :
    (trim ⟨negative, digits, -places⟩).digits = 0 ↔ digits = 0 := by
  obtain ⟨hvalue, -, -, -⟩ := dropZeros_spec digits places
  rw [trim_places]
  constructor
  · intro h
    dsimp only at h
    rw [h, Nat.cast_zero, zero_div, eq_comm, div_eq_zero_iff] at hvalue
    exact_mod_cast hvalue.resolve_right (by positivity)
  · rintro rfl
    rw [Nat.cast_zero, zero_div, div_eq_zero_iff] at hvalue
    exact_mod_cast hvalue.resolve_right (by positivity)

/-- The decimal of zero. -/
theorem ofMagnitude_zero (negative : Bool) : ofMagnitude negative 0 = ⟨false, 0, 0⟩ := by
  unfold ofMagnitude
  exact if_pos (.inl rfl)

/-- A magnitude that is rounded to zero has the decimal of zero. -/
theorem ofMagnitude_of_digits_eq_zero (negative : Bool)
    (h : roundAt (-placesOf (decade q)) q = 0) : ofMagnitude negative q = ⟨false, 0, 0⟩ :=
  if_pos (.inr ((trim_digits_eq_zero_iff _ _ _).2 h))

/-- Any other magnitude is rounded to its places, and zeros at the end are dropped. -/
theorem ofMagnitude_of_digits_ne_zero (negative : Bool) (hq : q ≠ 0)
    (h : roundAt (-placesOf (decade q)) q ≠ 0) :
    ofMagnitude negative q =
      trim ⟨negative, roundAt (-placesOf (decade q)) q, -placesOf (decade q)⟩ :=
  if_neg (not_or.2 ⟨hq, (trim_digits_eq_zero_iff _ _ _).not.2 h⟩)

/-- A magnitude is written as zero, or as its rounded digits without the zeros at their end. -/
theorem ofMagnitude_cases (negative : Bool) (q : ℚ) :
    ofMagnitude negative q = ⟨false, 0, 0⟩ ∨
      q ≠ 0 ∧ roundAt (-placesOf (decade q)) q ≠ 0 ∧ ofMagnitude negative q =
        trim ⟨negative, roundAt (-placesOf (decade q)) q, -placesOf (decade q)⟩ := by
  by_cases hq : q = 0
  · rw [hq]
    exact .inl (ofMagnitude_zero negative)
  · by_cases hdigits : roundAt (-placesOf (decade q)) q = 0
    · exact .inl (ofMagnitude_of_digits_eq_zero negative hdigits)
    · exact .inr ⟨hq, hdigits, ofMagnitude_of_digits_ne_zero negative hq hdigits⟩

/-- The decimal of a magnitude has no zeros at its end. -/
theorem isTrimmed_ofMagnitude (negative : Bool) (q : ℚ) : IsTrimmed (ofMagnitude negative q) := by
  rcases ofMagnitude_cases negative q with hzero | ⟨-, -, htrim⟩
  · rw [hzero]
    exact ⟨le_rfl, fun h => absurd h (lt_irrefl 0)⟩
  · rw [htrim]
    exact isTrimmed_trim _ _ _

/-- The decimal of a magnitude without a sign has none, either. -/
theorem negative_ofMagnitude_false (q : ℚ) : (ofMagnitude false q).negative = false := by
  unfold ofMagnitude
  dsimp only
  split
  · rfl
  · rw [withPlaces, trim_places]

/-- A magnitude is not rounded across an integer. -/
theorem magnitude_ofMagnitude_le (negative : Bool) (hq : 0 ≤ q) {bound : ℕ} (h : q ≤ bound) :
    magnitude (ofMagnitude negative q) ≤ bound := by
  rcases ofMagnitude_cases negative q with hzero | ⟨-, -, htrim⟩
  · rw [hzero, magnitude_zero]
    exact bound.cast_nonneg
  · rw [htrim, magnitude_trim, div_le_iff₀ (by positivity)]
    exact_mod_cast roundAt_le (placesOf (decade q)) hq h

/-- Up to three places are written as they are. -/
theorem magnitude_ofMagnitude_of_near (negative : Bool) {q : ℚ} (hq : 0 ≤ q) (hsize : q < 10 ^ 3)
    {k j : ℕ} (hj : j ≤ 3) (hnear : |q - k / 10 ^ j| ≤ 1 / 10 ^ 7) :
    magnitude (ofMagnitude negative q) = k / 10 ^ j := by
  have hpower : (10 : ℚ) ^ j ≤ 10 ^ 3 := pow_le_pow_right₀ (by norm_num) hj
  rcases hq.eq_or_lt with rfl | hpos
  · have hk : k = 0 := by
      rw [zero_sub, abs_neg, abs_of_nonneg (by positivity), div_le_iff₀ (by positivity)] at hnear
      have hlt : (k : ℚ) < (1 : ℕ) := by
        push_cast
        linarith
      exact Nat.lt_one_iff.1 (by exact_mod_cast hlt)
    rw [ofMagnitude_zero, magnitude_zero, hk, Nat.cast_zero, zero_div]
  · -- Below a thousand there are at least three decimal places.
    have hdecade : decade q < 3 := by
      have hlow := (decade_spec hpos).1.trans_lt hsize
      rw [← zpow_natCast] at hlow
      exact (zpow_lt_zpow_iff_right₀ (by norm_num)).1 hlow
    have hplaces : j ≤ placesOf (decade q) := by
      unfold placesOf
      omega
    have hsix := placesOf_le (decade q)
    -- The places of the decimal hold the value exactly, and so the magnitude is rounded to it.
    have hround : roundAt (-placesOf (decade q)) q = k * 10 ^ (placesOf (decade q) - j) := by
      refine roundAt_eq hq ?_
      obtain ⟨i, hi⟩ := Nat.exists_eq_add_of_le hplaces
      rw [hi] at hsix ⊢
      have hscaled : q * 10 ^ (j + i) - (k * 10 ^ (j + i - j) : ℕ) =
          (q - k / 10 ^ j) * 10 ^ (j + i) := by
        rw [Nat.add_sub_cancel_left, pow_add]
        push_cast
        field_simp
      rw [hscaled, abs_mul, abs_of_pos (a := (10 : ℚ) ^ (j + i)) (by positivity)]
      calc |q - k / 10 ^ j| * 10 ^ (j + i) ≤ 1 / 10 ^ 7 * 10 ^ 6 :=
            mul_le_mul hnear (pow_le_pow_right₀ (by norm_num) hsix) (by positivity) (by positivity)
        _ < 1 / 2 := by norm_num
    have hvalue : ((k * 10 ^ (placesOf (decade q) - j) : ℕ) : ℚ) / 10 ^ placesOf (decade q) =
        k / 10 ^ j := by
      obtain ⟨i, hi⟩ := Nat.exists_eq_add_of_le hplaces
      rw [hi, Nat.add_sub_cancel_left, pow_add]
      push_cast
      field_simp
    by_cases hdigits : roundAt (-placesOf (decade q)) q = 0
    · rw [ofMagnitude_of_digits_eq_zero negative hdigits, magnitude_zero, ← hvalue, ← hround,
        hdigits, Nat.cast_zero, zero_div]
    · rw [ofMagnitude_of_digits_ne_zero negative hpos.ne' hdigits, magnitude_trim, hround, hvalue]

/-- A number nearest to the decimal of a magnitude has the same decimal. -/
theorem ofMagnitude_of_isNearest (negative : Bool) (hshort : IsShort q)
    (hr : IsNearest r (magnitude (ofMagnitude negative q))) :
    ofMagnitude (ofMagnitude negative q).negative r = ofMagnitude negative q := by
  -- Zero is read and written as zero, and any other decimal has digits.
  rcases ofMagnitude_cases negative q with hzero | ⟨hq, hdigits, htrim⟩
  · rw [hzero, magnitude_zero] at hr
    rw [hzero, hr.eq_of_short isShort_zero, ofMagnitude_zero]
  · have hpos : 0 < q := lt_of_le_of_ne hshort.nonneg (Ne.symm hq)
    have hnonzero : (roundAt (-placesOf (decade q)) q : ℚ) ≠ 0 := by exact_mod_cast hdigits
    rw [htrim] at hr ⊢
    rw [magnitude_trim] at hr
    obtain ⟨hrpos, hvalue⟩ := roundAt_of_isNearest hpos hshort hdigits hr
    have hdigits' : roundAt (-placesOf (decade r)) r ≠ 0 := by
      intro h
      rw [h, Nat.cast_zero, zero_div] at hvalue
      exact div_ne_zero hnonzero (by positivity) hvalue.symm
    have hsign : (trim ⟨negative, roundAt (-placesOf (decade q)) q,
        -placesOf (decade q)⟩).negative = negative := by rw [trim_places]
    rw [hsign, ofMagnitude_of_digits_ne_zero negative hrpos.ne' hdigits']
    -- Two decimals without zeros at the end are the same if their magnitudes are.
    refine (isTrimmed_trim _ _ _).eq_of_magnitude_eq (isTrimmed_trim _ _ _) ?_ ?_
    · rw [trim_places, trim_places]
    · rw [magnitude_trim, magnitude_trim, hvalue]

/-! ## The number of a decimal -/

/-- A decimal with few digits and few places, or one that is an integer within the range of doubles,
is read as the nearest short magnitude. -/
theorem exists_isNearest_toNumber_places (negative : Bool) {digits places : ℕ}
    (h : digits < 2 ^ 53 ∧ places ≤ 22 ∨ places = 0 ∧ (digits : ℚ) ≤ Extended.largestValue) :
    ∃ r, IsNearest r (digits / 10 ^ places) ∧
      Double.HasValue (toNumber ⟨negative, digits, -places⟩) (signed negative r) := by
  have hliteral : ∃ r, IsNearest r (digits / 10 ^ places) ∧ Double.HasValue
      (OfScientific.ofScientific digits (decide (-(places : ℤ) < 0)) (-(places : ℤ)).natAbs) r := by
    -- Integers are read exactly, and decimals with places are quotients of exact numbers.
    rw [Int.natAbs_neg, Int.natAbs_natCast]
    rcases Nat.eq_zero_or_pos places with rfl | hpos
    · have hle : (digits : ℚ) ≤ Extended.largestValue := by
        rcases h with ⟨hdigits, -⟩ | ⟨-, hle⟩
        · exact natCast_le_largestValue hdigits.le
        · exact hle
      obtain ⟨r, hr, hexact⟩ := exact_ofScientific_whole hle
      rw [pow_zero, div_one]
      exact ⟨r, hr, Double.hasValue_of_exact hexact⟩
    · obtain ⟨hdigits, hplaces⟩ := h.resolve_right fun h => hpos.ne' h.1
      obtain ⟨r, hr, hexact⟩ := exact_ofScientific_places hdigits hplaces
      rw [decide_eq_true (by omega : -(places : ℤ) < 0)]
      exact ⟨r, hr, Double.hasValue_of_exact hexact⟩
  obtain ⟨r, hr, hvalue⟩ := hliteral
  refine ⟨r, hr, ?_⟩
  cases negative with
  | true => exact hvalue.neg
  | false => exact hvalue

/-- The decimal of a finite number is read as a nearest one. -/
theorem exists_isNearest_toNumber (negative : Bool) (hshort : IsShort q)
    (hle : q ≤ Extended.largestValue) :
    ∃ r, IsNearest r (magnitude (ofMagnitude negative q)) ∧
      Double.HasValue (ofMagnitude negative q).toNumber
        (signed (ofMagnitude negative q).negative r) := by
  rcases ofMagnitude_cases negative q with hzero | ⟨hq, -, htrim⟩
  · have hplaces := exists_isNearest_toNumber_places false
      (.inl ⟨(by norm_num : 0 < 2 ^ 53), (by norm_num : 0 ≤ 22)⟩)
    rw [← magnitude_places false] at hplaces
    rw [hzero]
    exact hplaces
  · have hpos : 0 < q := lt_of_le_of_ne hshort.nonneg (Ne.symm hq)
    obtain ⟨-, -, hdrop, hplaces⟩ := dropZeros_spec (roundAt (-placesOf (decade q)) q)
      (placesOf (decade q))
    rw [htrim, trim_places, magnitude_places]
    refine exists_isNearest_toNumber_places negative ?_
    -- From the sixth digit in front of the point on, no place is written behind it.
    rcases le_or_gt 5 (decade q) with hlarge | hsmall
    · have hwhole : placesOf (decade q) = 0 := by
        unfold placesOf
        omega
      rw [hwhole] at hdrop hplaces ⊢
      obtain ⟨bound, hbound⟩ : ∃ bound : ℕ, Extended.largestValue = bound := ⟨_, rfl⟩
      rw [hbound] at hle ⊢
      have hround := roundAt_le 0 hpos.le hle
      rw [pow_zero, mul_one] at hround
      exact .inr ⟨Nat.le_zero.1 hplaces, by exact_mod_cast hdrop.trans hround⟩
    · have hround := roundAt_le_of_decade_lt hpos hsmall (placesOf (decade q))
      have hsix := placesOf_le (decade q)
      have hpower : 10 ^ placesOf (decade q) ≤ 10 ^ 6 := Nat.pow_le_pow_right (by norm_num) hsix
      exact .inl ⟨by omega, by omega⟩

end ReadingBack

end Decimal

/-- The decimal of a number has no zeros at its end. -/
theorem Scalar.isTrimmed_decimal {K : Type} [Scalar K] (x : K) : (decimal x).IsTrimmed := by
  unfold decimal
  split
  · exact Decimal.isTrimmed_ofMagnitude _ _
  · exact ⟨le_rfl, fun h => absurd h (lt_irrefl 0)⟩

namespace Double.HasValue

open Binary Scalar

variable {x y : Double} {q r : ℚ}

/-- The decimal of a number is that of its magnitude. -/
theorem decimal_eq (negative : Bool) (h : HasValue x (signed negative q)) (hq : 0 ≤ q) :
    decimal x = Decimal.ofMagnitude negative q := by
  obtain ⟨negative', magnitude, hexact, hvalue⟩ := h
  have hmagnitude : magnitude = q := by
    rw [← abs_signed (isShort_of_exact hexact).nonneg, hvalue, abs_signed hq]
  have hdecimal : decimal x = Decimal.ofMagnitude negative' magnitude := by
    show (match Double.exact x with
      | .finite negative magnitude => Decimal.ofMagnitude negative magnitude
      | _ => ⟨false, 0, 0⟩) = _
    rw [hexact]
  rw [hdecimal, hmagnitude]
  -- Zero is written without a sign, and otherwise the sign is that of the value.
  rcases hq.eq_or_lt with rfl | hpos
  · rw [Decimal.ofMagnitude_zero, Decimal.ofMagnitude_zero]
  · rw [hmagnitude] at hvalue
    rw [signed_injective hpos hvalue]

/-- The decimal depends on the value only. -/
theorem decimal_congr (hx : HasValue x q) (hy : HasValue y q) : decimal x = decimal y := by
  rcases le_total 0 q with hq | hq
  · rw [hx.decimal_eq false hq, hy.decimal_eq false hq]
  · have hneg : q = signed true (-q) := (neg_neg q).symm
    rw [hneg] at hx hy
    rw [hx.decimal_eq true (neg_nonneg.2 hq), hy.decimal_eq true (neg_nonneg.2 hq)]

/-- What is written of a number and read back is a number that is written in the same way. -/
theorem exists_hasValue_printed (h : HasValue x q) :
    decimal (printed x) = decimal x ∧ ∃ r, HasValue (printed x) r := by
  obtain ⟨negative, magnitude, hexact, -⟩ := h
  have hshort := isShort_of_exact hexact
  have hdecimal := (hasValue_of_exact hexact).decimal_eq negative hshort.nonneg
  obtain ⟨r, hr, hvalue⟩ := Decimal.exists_isNearest_toNumber negative hshort
    (le_largestValue_of_exact hexact)
  rw [printed, hdecimal]
  refine ⟨?_, _, hvalue⟩
  rw [hvalue.decimal_eq _ hr.short.nonneg,
    Decimal.ofMagnitude_of_isNearest negative hshort hr]

/-- Numbers with the same value have the same text. -/
theorem text_congr (hx : HasValue x q) (hy : HasValue y q) : text x = text y := by
  rw [text_eq_decimal_text hx.isFinite, text_eq_decimal_text hy.isFinite, hx.decimal_congr hy]

/-- A number that is read back has the text that it was read from. -/
theorem text_printed (h : HasValue x q) : text (printed x) = text x := by
  obtain ⟨hdecimal, r, hr⟩ := h.exists_hasValue_printed
  rw [text_eq_decimal_text hr.isFinite, text_eq_decimal_text h.isFinite, hdecimal]

/-- A number that is not negative is read back as one that is not, and integers bound both. -/
theorem exists_printed (h : HasValue x q) (hq : 0 ≤ q) :
    ∃ r, HasValue (printed x) r ∧ 0 ≤ r ∧ ∀ bound : ℕ, bound ≤ 2 ^ 53 → q ≤ bound → r ≤ bound := by
  have hshort := h.isShort_abs
  have hle := h.abs_le_largestValue
  rw [abs_of_nonneg hq] at hshort hle
  have hdecimal : decimal x = Decimal.ofMagnitude false q := decimal_eq false h hq
  obtain ⟨r, hr, hvalue⟩ := Decimal.exists_isNearest_toNumber false hshort hle
  rw [Decimal.negative_ofMagnitude_false] at hvalue
  refine ⟨r, ?_, hr.short.nonneg, fun bound hbound hqbound => ?_⟩
  · rw [printed, hdecimal]
    exact hvalue
  · exact hr.le_of_le (isShort_natCast hbound)
      (Decimal.magnitude_ofMagnitude_le false hq hqbound)

/-- A number of up to three places is read back as the same number. -/
theorem printed_decimal (h : HasValue x r) {k j : ℕ} (hr : IsNearest r (k / 10 ^ j)) (hj : j ≤ 3)
    (hsize : (k : ℚ) / 10 ^ j ≤ 255) : HasValue (printed x) r := by
  have hnonneg := hr.short.nonneg
  have hk : k ≤ 2 ^ 53 := by
    have hpower : (10 : ℚ) ^ j ≤ 10 ^ 3 := pow_le_pow_right₀ (by norm_num) hj
    rw [div_le_iff₀ (by positivity)] at hsize
    have hle : (k : ℚ) ≤ (2 ^ 53 : ℕ) := by
      push_cast
      linarith
    exact_mod_cast hle
  -- The number is small, so it is read back as the nearest number to its decimal.
  have hrle : r ≤ 255 :=
    hr.le_of_le (by exact_mod_cast isShort_natCast (n := 255) (by norm_num)) hsize
  obtain ⟨r', hr', hvalue⟩ := Decimal.exists_isNearest_toNumber false hr.short
    (hrle.trans (by exact_mod_cast natCast_le_largestValue (n := 255) (by norm_num)))
  have hnear := hr.abs_sub_le_of_le (by positivity) (hsize.trans (by norm_num))
  rw [Decimal.magnitude_ofMagnitude_of_near false hnonneg (hrle.trans_lt (by norm_num)) hj hnear]
    at hr'
  -- Only one number is the nearest to a decimal of so few digits.
  rw [Decimal.negative_ofMagnitude_false, hr'.eq_of_decimal hr hk (by omega)] at hvalue
  rw [printed, decimal_eq false h hnonneg]
  exact hvalue

end Double.HasValue

/-! ## Literals -/

namespace Double

open Scalar

/-- The ends of the ranges of components are written and read back as they are. -/
theorem printed_literals : printed (0.0 : Double) = 0.0 ∧ printed (1.0 : Double) = 1.0 ∧
    printed (100.0 : Double) = 100.0 ∧ printed (360.0 : Double) = 360.0 ∧
    text (360.0 : Double) = "360" := by
  decide +kernel

/-- Zero is written and read back as it is. -/
theorem printed_zero : printed (0.0 : Double) = 0.0 := printed_literals.1

/-- One is written and read back as it is. -/
theorem printed_one : printed (1.0 : Double) = 1.0 := printed_literals.2.1

/-- A hundred is written and read back as it is. -/
theorem printed_hundred : printed (100.0 : Double) = 100.0 := printed_literals.2.2.1

/-- A full turn is written and read back as it is. -/
theorem printed_fullTurn : printed (360.0 : Double) = 360.0 := printed_literals.2.2.2.1

/-- The text of a full turn. -/
theorem text_fullTurn : text (360.0 : Double) = "360" := printed_literals.2.2.2.2

end Double

end CssColor
