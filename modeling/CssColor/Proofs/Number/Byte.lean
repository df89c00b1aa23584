import CssColor.Color.Text
import CssColor.Proofs.Number.Printing

/-!
# Bytes that are written and read back

Legacy colours hold whole numbers from 0 to 255 (`Double.IsByte`), and an alpha that stands for one
of them. The text of a byte reads back as the byte. Its alpha is written with the places that give
the byte back: two places where they do, by a test, and else three (`Double.HasValue.alphaOfByte`),
since the error of three places is below one half of a byte. So the text of the alpha is the same
when it is read and written again (`Double.IsByte.decimal_printed_alpha`).
-/

namespace CssColor

namespace Double

open Binary Scalar

/-- A whole number from 0 to 255, where zero may have a sign. -/
def IsByte (x : Double) : Prop :=
  (∃ n : ℕ, n ≤ 255 ∧ x = Scalar.nearest false n) ∨ x = Scalar.nearest true (0 : ℕ)

namespace IsByte

variable {x y : Double} {q : ℚ}

/-- A byte has the value of an integer up to 255. -/
theorem exists_hasValue (h : IsByte x) : ∃ n : ℕ, n ≤ 255 ∧ HasValue x n := by
  rcases h with ⟨n, hn, rfl⟩ | rfl
  · exact ⟨n, hn, HasValue.nearest_natCast false (by omega)⟩
  · have hzero := HasValue.nearest_natCast true (Nat.zero_le (2 ^ 53))
    rw [Nat.cast_zero, signed_zero] at hzero
    exact ⟨0, by omega, by exact_mod_cast hzero⟩

/-- A byte is finite. -/
theorem isFinite (h : IsByte x) : Scalar.isFinite x = true := by
  obtain ⟨n, -, hvalue⟩ := h.exists_hasValue
  exact hvalue.isFinite

end IsByte

namespace HasValue

variable {x : Double} {q : ℚ}

/-- A number between 0 and 255 is rounded to a byte. -/
theorem isByte_round (h : HasValue x q) (hlow : 0 ≤ q) (hhigh : q ≤ 255) :
    IsByte (Scalar.round x) := by
  obtain ⟨negative, n, hround, hnear, hsign⟩ := h.exists_round_eq hlow
  rw [hround]
  cases negative with
  | true => exact .inr (by rw [hsign rfl])
  | false => exact .inl ⟨n, le_of_near hnear (by exact_mod_cast hhigh), rfl⟩

/-- Bounds from zero upwards keep what they are given. -/
theorem exists_clamp {bound : Double} {b : ℚ} (h : HasValue x q) (hbound : HasValue bound b)
    (hb : 0 ≤ b) : ∃ p, HasValue (Number.clamp 0.0 bound x) p ∧ 0 ≤ p ∧ p ≤ b := by
  refine ⟨_, hasValue_zero.clamp hbound h, ?_, ?_⟩ <;> split <;> try split
  all_goals linarith

/-- A number that is clamped to the range of bytes and rounded is a byte. -/
theorem isByte_round_clamp (h : HasValue x q) :
    IsByte (Scalar.round (Number.clamp 0.0 255.0 x)) := by
  obtain ⟨p, hp, hlow, hhigh⟩ := h.exists_clamp hasValue_byteMax (by norm_num)
  exact hp.isByte_round hlow hhigh

/-- An alpha is rounded to a byte. -/
theorem isByte_alpha (h : HasValue x q) :
    IsByte (Scalar.round (Number.clamp 0.0 1.0 x * 255.0)) := by
  obtain ⟨p, hp, hlow, hhigh⟩ := h.exists_clamp hasValue_one (by norm_num)
  have hproduct : 0 ≤ p * 255 := by linarith
  have hle : p * 255 ≤ (255 : ℕ) := by
    push_cast
    linarith
  obtain ⟨r, hr, hvalue⟩ := exists_of_nonneg hproduct (hp.mul hasValue_byteMax (by
    rw [abs_of_nonneg hproduct]
    exact hle.trans (natCast_le_largestValue (by norm_num))))
  exact hvalue.isByte_round hr.short.nonneg
    (by exact_mod_cast hr.le_of_le (isShort_natCast (by norm_num)) hle)

end HasValue

end Double

/-! ## Bytes that are read back -/

open Double Scalar Binary

namespace Double

variable {x y : Double}

/-- A byte that is written and read back is rounded to a number with the same text. -/
theorem IsByte.decimal_printed (h : IsByte x) :
    decimal (Scalar.round (Number.clamp 0.0 255.0 (printed x))) = decimal x := by
  obtain ⟨n, hn, hvalue⟩ := h.exists_hasValue
  have hle : (n : ℚ) ≤ 255 := by exact_mod_cast hn
  have hnearest : IsNearest (n : ℚ) (n / 10 ^ 0) := by
    rw [pow_zero, div_one]
    exact .self (isShort_natCast (by omega))
  have hprinted := hvalue.printed_decimal hnearest (Nat.zero_le 3)
    (by rwa [pow_zero, div_one])
  rw [HasValue.clamp_eq_self hasValue_zero hasValue_byteMax hprinted (Nat.cast_nonneg n) hle]
  obtain ⟨m, hm, hnear⟩ := hprinted.exists_round (Nat.cast_nonneg n) (hle.trans (by norm_num))
  have hmn : m = n := eq_of_near hnear (by rw [sub_self, abs_zero]; norm_num)
  rw [hm.decimal_eq false (Nat.cast_nonneg m), hvalue.decimal_eq false (Nat.cast_nonneg n), hmn]

end Double

/-! ## The alpha of a byte -/

/-- The alpha that a legacy colour writes, by its byte. -/
def alphaOfByte {K : Type} [Scalar K] (byte : K) : K :=
  let hundredths := Scalar.round (byte / 255.0 * 100.0) / 100.0
  if Scalar.round (hundredths * 255.0) == byte then hundredths
  else Scalar.round (byte / 255.0 * 1000.0) / 1000.0

/-- The text of a legacy alpha is that of the number which stands for its byte. -/
theorem legacyAlphaText_eq {K : Type} [Scalar K] (alpha : K) : legacyAlphaText alpha =
    Scalar.text (alphaOfByte (Scalar.round (Number.clamp 0.0 1.0 alpha * 255.0))) := by
  unfold legacyAlphaText alphaOfByte
  dsimp only
  split <;> rfl

namespace Double

namespace HasValue

variable {x : Double} {n : ℕ}

/-- The quotient of a byte, rounded to some places. -/
theorem exists_places (h : HasValue x n) (hn : n ≤ 255) {scale : Double} {j : ℕ} (hj : j ≤ 3)
    (hscale : HasValue scale (10 ^ j : ℕ)) : ∃ (k : ℕ) (r : ℚ), (k : ℚ) / 10 ^ j ≤ 1 ∧
      |(k : ℚ) / 10 ^ j * 255 - n| ≤ (1 / 2 + 1 / 10 ^ 3) / 10 ^ j * 255 ∧
      IsNearest r (k / 10 ^ j) ∧ HasValue (Scalar.round (x / 255.0 * scale) / scale) r := by
  have hle : (n : ℚ) ≤ 255 := by exact_mod_cast hn
  have hpower : (10 : ℚ) ^ j ≤ 10 ^ 3 := pow_le_pow_right₀ (by norm_num) hj
  have hpos : (0 : ℚ) < 10 ^ j := by positivity
  have hquotient : (0 : ℚ) ≤ n / 255 ∧ (n : ℚ) / 255 ≤ 1 :=
    ⟨by positivity, (div_le_one (by norm_num)).2 hle⟩
  -- The quotient is rounded once, and its product with the power of ten once more.
  obtain ⟨p, hp, hx⟩ := h.div_of_nonneg hasValue_byteMax (Nat.cast_nonneg n) (by norm_num)
    (hquotient.2.trans (by norm_num))
  have hp0 := hp.short.nonneg
  have hp1 : p ≤ 1 := hp.le_of_le isShort_one hquotient.2
  have hscaled : p * (10 ^ j : ℕ) ≤ (10 ^ j : ℕ) :=
    mul_le_of_le_one_left (Nat.cast_nonneg _) hp1
  have hbits : 10 ^ j ≤ 2 ^ 53 := (Nat.pow_le_pow_right (by norm_num) hj).trans (by norm_num)
  obtain ⟨s, hs, hx⟩ := hx.mul_of_nonneg hscale hp0 (Nat.cast_nonneg _)
    (hscaled.trans (by exact_mod_cast hbits))
  have hs1 : s ≤ (10 ^ j : ℕ) := hs.le_of_le (isShort_natCast hbits) hscaled
  obtain ⟨k, hx, hk⟩ := hx.exists_round hs.short.nonneg (hs1.trans (by exact_mod_cast hbits))
  have hk1 : (k : ℚ) / 10 ^ j ≤ 1 := by
    rw [div_le_one hpos]
    exact_mod_cast le_of_near hk hs1
  -- The integer is divided by the power of ten again, which is the nearest number to the decimal.
  obtain ⟨r, hr, hx⟩ := hx.div_of_nonneg hscale (Nat.cast_nonneg k) (by exact_mod_cast hpos)
    (by push_cast; exact hk1.trans (by norm_num))
  push_cast at hr hs hscaled
  refine ⟨k, r, hk1, ?_, hr, hx⟩
  -- Both roundings of the quotient are far below the rounding to places.
  have hperror := hp.abs_sub_le_of_le hquotient.1 (hquotient.2.trans (by norm_num))
  have hserror := hs.abs_sub_le_of_le (by positivity) (hscaled.trans (hpower.trans (by norm_num)))
  have hdistance : |(k : ℚ) - n / 255 * 10 ^ j| ≤ 1 / 2 + 1 / 10 ^ 3 := by
    have hsplit : (k : ℚ) - n / 255 * 10 ^ j =
        (k - s) + (s - p * 10 ^ j) + (p - n / 255) * 10 ^ j := by ring
    have hthird : |(p - n / 255) * 10 ^ j| ≤ 1 / 10 ^ 7 * 10 ^ 3 := by
      rw [abs_mul, abs_of_pos hpos]
      exact mul_le_mul hperror hpower hpos.le (by norm_num)
    rw [hsplit]
    calc |(k - s) + (s - p * 10 ^ j) + (p - n / 255) * 10 ^ j|
        ≤ |k - s| + |s - p * 10 ^ j| + |(p - n / 255) * 10 ^ j| := abs_add_three _ _ _
      _ ≤ 1 / 2 + 1 / 10 ^ 7 + 1 / 10 ^ 7 * 10 ^ 3 := by gcongr
      _ ≤ 1 / 2 + 1 / 10 ^ 3 := by norm_num
  have hvalue : (k : ℚ) / 10 ^ j * 255 - n = (k - n / 255 * 10 ^ j) / 10 ^ j * 255 := by
    field_simp
  rw [hvalue, abs_mul, abs_div, abs_of_pos hpos, abs_of_pos (by norm_num : (0 : ℚ) < 255)]
  gcongr

/-- The alpha of a byte has up to three places and stands for the byte. -/
theorem alphaOfByte (h : HasValue x n) (hn : n ≤ 255) : ∃ (k j : ℕ) (r : ℚ), j ≤ 3 ∧
    (k : ℚ) / 10 ^ j ≤ 1 ∧ IsNearest r (k / 10 ^ j) ∧ HasValue (CssColor.alphaOfByte x) r ∧
      HasValue (Scalar.round (CssColor.alphaOfByte x * 255.0)) n := by
  -- What an alpha of some places is rounded to.
  have hback : ∀ {a : Double} {k j : ℕ} {r : ℚ}, (k : ℚ) / 10 ^ j ≤ 1 → IsNearest r (k / 10 ^ j) →
      HasValue a r → ∃ (m : ℕ) (s : ℚ), HasValue (Scalar.round (a * 255.0)) m ∧
        |(m : ℚ) - s| ≤ 1 / 2 ∧ |s - k / 10 ^ j * 255| ≤ 1 / 10 ^ 3 := by
    intro a k j r hk hr ha
    have hr0 := hr.short.nonneg
    have hr1 : r ≤ 1 := hr.le_of_le isShort_one hk
    obtain ⟨s, hs, hs'⟩ := ha.mul_of_nonneg hasValue_byteMax hr0 (by norm_num)
      (by push_cast; linarith)
    have hs1 : s ≤ 255 :=
      hs.le_of_le (by exact_mod_cast isShort_natCast (n := 255) (by norm_num)) (by linarith)
    obtain ⟨m, hm, hnear⟩ := hs'.exists_round hs.short.nonneg (by linarith)
    refine ⟨m, s, hm, hnear, ?_⟩
    have hrerror := hr.abs_sub_le_of_le (by positivity) (hk.trans (by norm_num))
    have hserror := hs.abs_sub_le_of_le (by positivity) (by linarith)
    rw [abs_le] at hrerror hserror ⊢
    constructor <;> linarith
  -- Two places are enough if they lead back to the byte.
  obtain ⟨k, r, hk, -, hr, hvalue⟩ := h.exists_places hn (j := 2) (by norm_num)
    (by exact_mod_cast hasValue_hundred)
  obtain ⟨m, s, hm, -, -⟩ := hback hk hr hvalue
  unfold CssColor.alphaOfByte
  dsimp only
  split
  · next htest => exact ⟨k, 2, r, by norm_num, hk, hr, hvalue, (hm.beq_iff h).1 htest ▸ hm⟩
  · -- Three places always do: their error is below half a byte.
    obtain ⟨k, r, hk, hclose, hr, hvalue⟩ := h.exists_places hn (j := 3) le_rfl
      (by exact_mod_cast hasValue_thousand)
    obtain ⟨m, s, hm, hnear, hs⟩ := hback hk hr hvalue
    have hmn : m = n := by
      refine eq_of_near hnear ?_
      rw [abs_le] at hclose hs
      rw [abs_lt]
      constructor <;> linarith
    exact ⟨k, 3, r, le_rfl, hk, hr, hvalue, hmn ▸ hm⟩

end HasValue

namespace IsByte

variable {x : Double}

/-- The alpha of a byte is finite. -/
theorem exists_hasValue_alphaOfByte (h : IsByte x) : ∃ q, HasValue (alphaOfByte x) q := by
  obtain ⟨n, hn, hvalue⟩ := h.exists_hasValue
  obtain ⟨k, j, r, -, -, -, halpha, -⟩ := hvalue.alphaOfByte hn
  exact ⟨r, halpha⟩

/-- The alpha of a byte that is zero is written as zero. -/
theorem decimal_alphaOfByte_of_zero (h : IsByte x) (hzero : HasValue x 0) :
    decimal (alphaOfByte x) = ⟨false, 0, 0⟩ := by
  rcases h with ⟨n, hn, rfl⟩ | rfl
  · have hn0 : (n : ℚ) = 0 := (HasValue.nearest_natCast false (by omega)).unique hzero
    rw [show n = 0 by exact_mod_cast hn0]
    decide +kernel
  · decide +kernel

/-- The alpha of a byte that is written and read back gives the same alpha. -/
theorem decimal_printed_alpha (h : IsByte x) : decimal (alphaOfByte (Scalar.round
    (Number.clamp 0.0 1.0 (Number.clamp 0.0 1.0 (printed (alphaOfByte x))) * 255.0))) =
      decimal (alphaOfByte x) := by
  obtain ⟨n, hn, hvalue⟩ := h.exists_hasValue
  obtain ⟨k, j, r, hj, hk, hr, halpha, hbyte⟩ := hvalue.alphaOfByte hn
  have hr0 := hr.short.nonneg
  have hr1 : r ≤ 1 := hr.le_of_le isShort_one hk
  have hprinted := halpha.printed_decimal hr hj (hk.trans (by norm_num))
  have hclamp := HasValue.clamp_eq_self hasValue_zero hasValue_one hprinted hr0 hr1
  have hbyte' := hprinted.isByte_alpha
  rw [hclamp] at hbyte' ⊢
  rw [hclamp]
  -- The alpha that is read back stands for the same byte.
  have hvalue' : HasValue (Scalar.round (printed (alphaOfByte x) * 255.0)) n := by
    rcases eq_or_ne r 0 with rfl | hne
    · have hzero : ∀ {a}, HasValue a 0 → HasValue (Scalar.round (a * 255.0)) (0 : ℕ) := by
        intro a ha
        obtain ⟨s, hs, hproduct⟩ := ha.mul_of_nonneg hasValue_byteMax le_rfl (by norm_num)
          (by norm_num)
        rw [zero_mul] at hs
        rw [hs.eq_of_short isShort_zero] at hproduct
        obtain ⟨m, hm, hnear⟩ := hproduct.exists_round le_rfl (by norm_num)
        rw [eq_of_near (k := 0) hnear (by norm_num)] at hm
        exact hm
      rw [hbyte.unique (hzero halpha)]
      exact hzero hprinted
    · rwa [hprinted.eq_of_ne_zero halpha hne]
  rcases eq_or_ne (n : ℚ) 0 with hzero | hne
  · rw [hzero] at hvalue hvalue'
    rw [hbyte'.decimal_alphaOfByte_of_zero hvalue', h.decimal_alphaOfByte_of_zero hvalue]
  · rw [hvalue'.eq_of_ne_zero hvalue hne]

end IsByte

end Double

end CssColor
