import CssColor.Number.Double
import CssColor.Proofs.Number.Extended
import CssColor.Proofs.Number.Rounding
import Mathlib

/-!
# Numbers of 64 bits

The rational values of numbers of 64 bits. Packing a finite number and unpacking it gives it back
(`Binary.unpack_pack_finite`); sums, products, quotients and literals that do not overflow are the
nearest short magnitudes of the exact results (`Binary.exact_add`, `Binary.exact_mul`,
`Binary.exact_div`, `Binary.exact_ofScientific_places`); and numbers are compared by their values
(`Binary.compare_eq`).
-/

namespace CssColor.Binary

open Float.Model Float.Model.UnpackedFloat
open Double (isNegativeSign signOf scaled)
open Extended (largestValue)

/-! ## Numbers in 64 bits -/

/-- The sign of packed components can be read off again. -/
theorem unpackSign_packComponents (sign : Sign) (exponent : BitVec 11) (mantissa : BitVec 52) :
    Sign.ofBitVec (unpackSign (packComponents .binary64 sign exponent mantissa)) = sign := by
  unfold unpackSign packComponents BitVec.extractLsb
  rw [BitVec.extractLsb'_append_eq_of_le (by decide), BitVec.extractLsb'_append_eq_of_le (by decide)]
  cases sign <;> rfl

/-- The implicit bit in front of a mantissa counts `2 ^ 52`. -/
theorem toNat_one_append (mantissa : BitVec 52) :
    (1#1 ++ mantissa).toNat = 2 ^ 52 + mantissa.toNat := by
  rw [BitVec.toNat_append, ← Nat.shiftLeft_add_eq_or_of_lt mantissa.isLt]
  rfl

/-- Zero is stored with its sign. -/
theorem unpack_pack_zero (sign : Sign) : (Float.Model.pack (.zero sign)).unpack = .zero sign := by
  cases sign <;> rfl

/-- A finite number of a size that fits survives packing. -/
theorem unpack_pack_finite {sign : Sign} {m : ℕ} {e : ℤ} {hm : 0 < m} (h : IsStored m e)
    (he : e ≤ 971) : (Float.Model.pack (.finite sign m e hm)).unpack = .finite sign m e hm := by
  obtain ⟨hlt, hle, hnormal⟩ := h
  obtain ⟨b, hb⟩ : ∃ b : ℕ, (b : ℤ) = e + 1075 := ⟨(e + 1075).toNat, by omega⟩
  have hbias : (Format.binary64.exponentBias : ℤ) = 1023 := rfl
  have hbits : (Format.binary64.mantissaBitsWithoutImplicit : ℤ) = 52 := rfl
  have hbiased : (e + Format.binary64.exponentBias +
      (Format.binary64.mantissaBitsWithoutImplicit : ℕ)).toNat = b := by omega
  have hfits : ¬ 2 ^ 11 ≤ b + 1 := by omega
  have hexponent : (BitVec.ofNat 11 b).toNat = b := by
    rw [BitVec.toNat_ofNat, Nat.mod_eq_of_lt (by omega)]
  have hfull : BitVec.ofNat 11 b ≠ -1#11 := fun heq => by
    have hvalue := congrArg BitVec.toNat heq
    rw [hexponent, show (-1#11).toNat = 2047 from rfl] at hvalue
    omega
  have hempty : BitVec.ofNat 11 b ≠ 0#11 := fun heq => by
    have hvalue := congrArg BitVec.toNat heq
    rw [hexponent, show (0#11).toNat = 0 from rfl] at hvalue
    omega
  show unpack .binary64 (pack .binary64 (.finite sign m e hm)) = .finite sign m e hm
  by_cases hnorm : 2 ^ 52 ≤ m
  · -- The first of 53 bits is left out.
    have hlog : m.log2 + 1 = Format.binary64.mantissaBits := by
      rw [(Nat.log2_eq_iff hm.ne').2 ⟨hnorm, hlt⟩]
      rfl
    have hpack : pack .binary64 (.finite sign m e hm) =
        packComponents .binary64 sign (BitVec.ofNat 11 b) (BitVec.ofNat 52 m) := by
      unfold UnpackedFloat.pack
      simp only [hbiased]
      rw [if_neg hfits, if_pos hlog]
    have hmantissa : (1#1 ++ BitVec.ofNat 52 m).toNat = m := by
      rw [toNat_one_append, BitVec.toNat_ofNat]
      omega
    unfold UnpackedFloat.unpack
    rw [hpack]
    simp only [unpackExponent_packComponents, unpackMantissa_packComponents,
      unpackSign_packComponents, hexponent, hmantissa, if_neg hfull, if_neg hempty]
    congr 1
    omega
  · have hleast : e = -1074 := hnormal.resolve_left hnorm
    -- Fewer than 53 bits, under the least exponent, are stored as they are.
    have hlog : ¬ m.log2 + 1 = Format.binary64.mantissaBits := by
      have hlt52 := (Nat.log2_lt hm.ne').2 (Nat.lt_of_not_le hnorm)
      have hwidth : Format.binary64.mantissaBits = 53 := rfl
      omega
    have hpack : pack .binary64 (.finite sign m e hm) =
        packComponents .binary64 sign 0#11 (BitVec.ofNat 52 m) := by
      unfold UnpackedFloat.pack
      simp only [hbiased]
      rw [if_neg hfits, if_neg hlog]
    have hmantissa : (BitVec.ofNat 52 m).toNat = m := by
      rw [BitVec.toNat_ofNat, Nat.mod_eq_of_lt (Nat.lt_of_not_le hnorm)]
    have hsome : BitVec.ofNat 52 m ≠ 0#52 := fun heq => by
      have hvalue := congrArg BitVec.toNat heq
      rw [hmantissa, show (0#52).toNat = 0 from rfl] at hvalue
      omega
    unfold UnpackedFloat.unpack
    rw [hpack]
    have hzero : 0#11 ≠ -1#11 := by decide
    simp only [unpackExponent_packComponents, unpackMantissa_packComponents,
      unpackSign_packComponents, hmantissa, if_neg hzero, dif_neg hsome, ↓reduceIte]
    congr 1
    rw [hleast]
    rfl

/-- What is read from storage fits into it. -/
theorem isStored_of_unpack {x : Float.Model} {sign : Sign} {m : ℕ} {e : ℤ} {hm : 0 < m}
    (h : x.unpack = .finite sign m e hm) : IsStored m e ∧ e ≤ 971 := by
  have hbias : (Format.binary64.exponentBias : ℤ) = 1023 := rfl
  have hbits : (Format.binary64.mantissaBitsWithoutImplicit : ℤ) = 52 := rfl
  obtain ⟨mantissa, hmantissa⟩ : ∃ mantissa : BitVec 52,
      (unpackMantissa x.toBits.toBitVec : BitVec Format.binary64.mantissaBitsWithoutImplicit) =
        mantissa := ⟨_, rfl⟩
  obtain ⟨exponent, hexponent⟩ : ∃ exponent : BitVec 11,
      (unpackExponent x.toBits.toBitVec : BitVec Format.binary64.exponentBits) = exponent :=
    ⟨_, rfl⟩
  have hmlt : mantissa.toNat < 2 ^ 52 := mantissa.isLt
  have helt : exponent.toNat < 2 ^ 11 := exponent.isLt
  unfold Float.Model.unpack UnpackedFloat.unpack at h
  simp only [hmantissa, hexponent] at h
  split at h
  · -- A full exponent stands for infinities and undefined numbers.
    split at h <;> cases h
  · next hfull =>
    have hfull' : exponent.toNat ≠ 2047 := fun heq => hfull (BitVec.eq_of_toNat_eq heq)
    split at h
    · next hempty =>
      -- An empty exponent stands for zero and for the numbers with fewer bits.
      split at h
      · cases h
      · cases h
        have hzero : exponent.toNat = 0 := congrArg BitVec.toNat hempty
        exact ⟨⟨by omega, by omega, .inr (by omega)⟩, by omega⟩
    · next hsome =>
      have hsome' : exponent.toNat ≠ 0 := fun heq => hsome (BitVec.eq_of_toNat_eq heq)
      cases h
      rw [toNat_one_append]
      exact ⟨⟨by omega, by omega, .inl (by omega)⟩, by omega⟩

/-- The bits of a number are its sign, exponent and mantissa. -/
theorem packComponents_unpack (bits : BitVec 64) :
    packComponents .binary64 (Sign.ofBitVec (@unpackSign .binary64 bits))
      (@unpackExponent .binary64 bits) (@unpackMantissa .binary64 bits) = bits := by
  have hsign : ∀ sign : BitVec 1, (Sign.ofBitVec sign).toBitVec = sign := by decide
  have hhead : BitVec.extractLsb' 63 1 bits ++ BitVec.extractLsb' 52 11 bits =
      BitVec.extractLsb' 52 12 bits := BitVec.extractLsb'_append_extractLsb'_eq_extractLsb' rfl
  have hall : BitVec.extractLsb' 52 12 bits ++ BitVec.extractLsb' 0 52 bits =
      BitVec.extractLsb' 0 64 bits := BitVec.extractLsb'_append_extractLsb'_eq_extractLsb' rfl
  unfold packComponents unpackSign unpackExponent unpackMantissa
  rw [hsign]
  show BitVec.extractLsb' 63 1 bits ++ BitVec.extractLsb' 52 11 bits ++
    BitVec.extractLsb' 0 52 bits = bits
  rw [hhead, hall, BitVec.extractLsb'_eq_self]

/-- The bits that zero is stored with. -/
theorem toBits_of_zero {x : Float.Model} {sign : Sign} (h : x.unpack = .zero sign) :
    x.toBits.toBitVec = packComponents .binary64 sign 0#11 0#52 := by
  have hparts := packComponents_unpack x.toBits.toBitVec
  unfold Float.Model.unpack UnpackedFloat.unpack at h
  -- Only a number without exponent and mantissa bits is unpacked as zero.
  dsimp only at h
  split at h
  · split at h <;> cases h
  · split at h
    · next hempty =>
      split at h
      · next hnone =>
        cases h
        rw [hempty, hnone] at hparts
        exact hparts.symm
      · cases h
    · cases h

/-- The bits of a finite number. A mantissa of less than 53 bits is stored with no exponent. -/
theorem toBits_of_finite {x : Float.Model} {sign : Sign} {m : ℕ} {e : ℤ} {hm : 0 < m}
    (h : x.unpack = .finite sign m e hm) : x.toBits.toBitVec = packComponents .binary64 sign
      (BitVec.ofNat 11 (if m < 2 ^ 52 then 0 else (e + 1075).toNat)) (BitVec.ofNat 52 m) := by
  have hparts := packComponents_unpack x.toBits.toBitVec
  obtain ⟨mantissa, hmantissa⟩ : ∃ mantissa : BitVec 52,
      (unpackMantissa x.toBits.toBitVec : BitVec Format.binary64.mantissaBitsWithoutImplicit) =
        mantissa := ⟨_, rfl⟩
  obtain ⟨exponent, hexponent⟩ : ∃ exponent : BitVec 11,
      (unpackExponent x.toBits.toBitVec : BitVec Format.binary64.exponentBits) = exponent :=
    ⟨_, rfl⟩
  have hbias : (Format.binary64.exponentBias : ℤ) = 1023 := rfl
  have hbits : (Format.binary64.mantissaBitsWithoutImplicit : ℤ) = 52 := rfl
  have hmlt : mantissa.toNat < 2 ^ 52 := mantissa.isLt
  unfold Float.Model.unpack UnpackedFloat.unpack at h
  rw [hmantissa, hexponent] at hparts
  simp only [hmantissa, hexponent] at h
  split at h
  · split at h <;> cases h
  · split at h
    · next hempty =>
      -- No implicit bit.
      split at h
      · cases h
      · cases h
        rw [hempty] at hparts
        rw [if_pos hmlt, BitVec.ofNat_toNat, BitVec.setWidth_eq]
        exact hparts.symm
    · cases h
      -- The implicit bit is dropped again.
      have hnormal : ¬ (1#1 ++ mantissa).toNat < 2 ^ 52 := by
        rw [toNat_one_append]
        omega
      have hfield : BitVec.ofNat 52 (1#1 ++ mantissa).toNat = mantissa := by
        apply BitVec.eq_of_toNat_eq
        rw [BitVec.toNat_ofNat, toNat_one_append]
        omega
      have hbiased : ((exponent.toNat : ℤ) - (Format.binary64.exponentBias +
          (Format.binary64.mantissaBitsWithoutImplicit : ℕ)) + 1075).toNat = exponent.toNat := by
        omega
      rw [if_neg hnormal, hfield, hbiased, BitVec.ofNat_toNat, BitVec.setWidth_eq]
      exact hparts.symm

/-- A number is determined by its bits. -/
theorem eq_of_toBits_eq {x y : Float} (h : x.toModel.toBits.toBitVec = y.toModel.toBits.toBitVec) :
    x = y := by
  obtain ⟨⟨⟨_⟩, _⟩⟩ := x
  obtain ⟨⟨⟨_⟩, _⟩⟩ := y
  cases h
  rfl

/-! ## The values of numbers -/

/-- A mantissa is scaled by a power of two. -/
theorem scaled_eq (m : ℕ) (e : ℤ) : scaled m e = m * 2 ^ e := by
  cases e with
  | ofNat n =>
    show ((m * Nat.pow 2 n : ℕ) : ℚ) = m * 2 ^ (n : ℤ)
    push_cast
    rw [zpow_natCast]
    norm_num
  | negSucc n =>
    show mkRat m (Nat.pow 2 (n + 1)) = m * 2 ^ Int.negSucc n
    rw [Rat.mkRat_eq_div, zpow_negSucc, div_eq_mul_inv]
    push_cast
    norm_num

/-- The sign of a flag is negative if the flag is set. -/
theorem isNegativeSign_signOf (negative : Bool) : isNegativeSign (signOf negative) = negative := by
  cases negative <;> rfl

/-- The flag of a sign gives it back. -/
theorem signOf_isNegativeSign (sign : Sign) : signOf (isNegativeSign sign) = sign := by
  cases sign <;> rfl

/-- A number with a rational value is zero or finite, with the parts that it is stored with. -/
theorem unpack_of_exact {x : Float} {negative : Bool} {q : ℚ}
    (h : Double.exact (.number x) = .finite negative q) :
    q = 0 ∧ x.toModel.unpack = .zero (signOf negative) ∨
      ∃ (m : ℕ) (e : ℤ) (hm : 0 < m), IsStored m e ∧ e ≤ 971 ∧ q = m * 2 ^ e ∧
        x.toModel.unpack = .finite (signOf negative) m e hm := by
  -- What is exactly a finite number was unpacked as one or as zero.
  cases hunpack : x.toModel.unpack with
  | notANumber =>
    simp only [Double.exact, hunpack] at h
    cases h
  | infinity =>
    simp only [Double.exact, hunpack] at h
    cases h
  | zero sign =>
    simp only [Double.exact, hunpack] at h
    cases h
    exact .inl ⟨rfl, by rw [signOf_isNegativeSign]⟩
  | finite sign m e hm =>
    simp only [Double.exact, hunpack] at h
    cases h
    obtain ⟨hstored, he⟩ := isStored_of_unpack hunpack
    exact .inr ⟨m, e, hm, hstored, he, scaled_eq m e, by rw [signOf_isNegativeSign]⟩

/-- The exact form of zero. -/
theorem exact_of_zero {x : Float} {sign : Sign} (h : x.toModel.unpack = .zero sign) :
    Double.exact (.number x) = .finite (isNegativeSign sign) 0 := by
  unfold Double.exact
  simp only [h]

/-- The exact form of a number that is neither zero nor infinite. -/
theorem exact_of_finite {x : Float} {sign : Sign} {m : ℕ} {e : ℤ} {hm : 0 < m}
    (h : x.toModel.unpack = .finite sign m e hm) :
    Double.exact (.number x) = .finite (isNegativeSign sign) (m * 2 ^ e) := by
  unfold Double.exact
  simp only [h, scaled_eq]

/-- The largest mantissa under some exponent, as a rational. -/
theorem natCast_largest (k : ℕ) :
    (((2 ^ 53 - 1) * 2 ^ k : ℕ) : ℚ) = (2 ^ 53 - 1 : ℕ) * 2 ^ (k : ℤ) := by
  rw [Nat.cast_mul, Nat.cast_pow, Nat.cast_ofNat, zpow_natCast]

/-- The largest number is short, so rounding does not go above it. -/
theorem isShort_largestValue : IsShort largestValue :=
  ⟨2 ^ 53 - 1, 971, by norm_num, by norm_num, natCast_largest 971⟩

/-- A rounded result that does not overflow has a nearest short magnitude as its value. -/
theorem exact_roundWithAccuracy (sign : Sign) {m : ℕ} {e : ℤ} {accuracy : Accuracy} {q : ℚ}
    (h : Describes (.ofMantissaAndAccuracy m accuracy) (q / 2 ^ e))
    (hsize : 52 ≤ m.log2 ∨ e ≤ -1074) (hq : q ≤ largestValue) :
    ∃ r, IsNearest r q ∧
      Double.exact (.number (.ofModel (.pack (roundWithAccuracy .binary64 sign m e accuracy)))) =
        .finite (isNegativeSign sign) r := by
  rcases roundWithAccuracy_nearest sign h hsize with ⟨hnearest, hround⟩ |
    ⟨n, f, hn, hstored, hnearest, hround⟩
  · -- The result is rounded to zero.
    refine ⟨0, hnearest, exact_of_zero ?_⟩
    rw [hround, unpack_pack_zero]
  · refine ⟨_, hnearest, @exact_of_finite _ _ _ _ hn ?_⟩
    rw [hround, unpack_pack_finite hstored]
    -- A greater exponent would lead above the largest number.
    by_contra hgreat
    have hle := hnearest.le_of_le isShort_largestValue hq
    have hbits : 2 ^ 52 ≤ n := hstored.normal.resolve_right (by omega)
    have hpower : (2 : ℚ) ^ (972 : ℤ) ≤ 2 ^ f := zpow_le_zpow_right₀ one_le_two (by omega)
    have hlarge : (2 : ℚ) ^ 52 * 2 ^ (972 : ℤ) ≤ n * 2 ^ f :=
      mul_le_mul (by exact_mod_cast hbits) hpower (by positivity) (by positivity)
    have hunit : ∀ unit : ℚ, 0 < unit → (2 ^ 53 - 1 : ℕ) * unit < 2 ^ 52 * (unit * 2) := by
      intro unit hpos
      norm_num
      linarith
    have hlargest : largestValue < 2 ^ 52 * 2 ^ (972 : ℤ) := by
      rw [largestValue, natCast_largest, show (972 : ℤ) = (971 : ℕ) + 1 from rfl,
        zpow_add_one₀ two_ne_zero]
      exact hunit _ (by positivity)
    exact absurd (hlarge.trans hle) (not_le.2 hlargest)

/-! ## Operations -/

/-- A quotient is negative if one of its parts is. -/
theorem isNegativeSign_div (sign sign' : Sign) :
    isNegativeSign (sign / sign') = (isNegativeSign sign ^^ isNegativeSign sign') := by
  cases sign <;> cases sign' <;> rfl

/-- A product is negative if one of its factors is. -/
theorem isNegativeSign_mul (sign sign' : Sign) :
    isNegativeSign (sign * sign') = (isNegativeSign sign ^^ isNegativeSign sign') := by
  cases sign <;> cases sign' <;> rfl

/-- A fraction below one tells how a mantissa goes on. -/
theorem describes_fraction (m : ℕ) {b d : ℕ} (hb : b < d) :
    Describes (.ofMantissaAndAccuracy m (accuracyOfFraction b d)) (m + b / d) := by
  have hd : (0 : ℚ) < d := by exact_mod_cast Nat.zero_lt_of_lt hb
  have hone : (b / d : ℚ) < 1 := (div_lt_one hd).2 (by exact_mod_cast hb)
  by_cases hzero : b = 0
  · -- Nothing is left over.
    rw [hzero, accuracyOfFraction, if_pos rfl, Nat.cast_zero, zero_div, add_zero]
    rfl
  · have hpos : (0 : ℚ) < b / d := div_pos (by exact_mod_cast Nat.pos_of_ne_zero hzero) hd
    rw [accuracyOfFraction, if_neg hzero]
    rcases lt_trichotomy (2 * b) d with hlt | heq | hgt
    · -- The rest is below one half, one half, or above it.
      have hhalf : (b / d : ℚ) < 1 / 2 := by
        rw [div_lt_div_iff₀ hd two_pos]
        exact_mod_cast (by omega : b * 2 < 1 * d)
      rw [Nat.compare_eq_lt.2 hlt]
      exact ⟨lt_add_of_pos_right _ hpos, add_lt_add_right hhalf _⟩
    · have hhalf : (b / d : ℚ) = 1 / 2 := by
        rw [div_eq_div_iff hd.ne' two_ne_zero]
        exact_mod_cast (by omega : b * 2 = 1 * d)
      rw [Nat.compare_eq_eq.2 heq, hhalf]
      rfl
    · have hhalf : (1 / 2 : ℚ) < b / d := by
        rw [div_lt_div_iff₀ two_pos hd]
        exact_mod_cast (by omega : 1 * d < b * 2)
      rw [Nat.compare_eq_gt.2 hgt]
      exact ⟨add_lt_add_right hhalf _, add_lt_add_right hone _⟩

/-- A quotient in units of a last bit, with the remainder of the division. -/
theorem quotient_eq (m : ℕ) {m' k : ℕ} {e e' t : ℤ} (hm' : 0 < m') (hk : e - e' = t + k) :
    (m * 2 ^ e / (m' * 2 ^ e') : ℚ) / 2 ^ t =
      (m <<< k / m' : ℕ) + (m <<< k % m' : ℕ) / m' := by
  -- The shifted numerator is split into a quotient and a remainder.
  have hd : (0 : ℚ) < m' := by exact_mod_cast hm'
  have hparts : ((m <<< k : ℕ) : ℚ) = m' * (m <<< k / m' : ℕ) + (m <<< k % m' : ℕ) := by
    exact_mod_cast (Nat.div_add_mod _ _).symm
  have hshift : ((m <<< k : ℕ) : ℚ) = m * 2 ^ k := by
    rw [Nat.shiftLeft_eq]
    push_cast
    rfl
  have hexponent : (2 : ℚ) ^ e = 2 ^ t * 2 ^ k * 2 ^ e' := by
    rw [← zpow_natCast, ← zpow_add₀ two_ne_zero, ← zpow_add₀ two_ne_zero]
    congr 1
    omega
  have hunit : (0 : ℚ) < 2 ^ t := by positivity
  have hunit' : (0 : ℚ) < 2 ^ e' := by positivity
  rw [hexponent]
  field_simp
  linarith

/-- Dividing finite numbers rounds their quotient. -/
theorem exact_div_finite (sign sign' : Sign) {m m' : ℕ} (e e' : ℤ) (hm : 0 < m) (hm' : 0 < m')
    (hle : m * 2 ^ e / (m' * 2 ^ e') ≤ largestValue) :
    ∃ r, IsNearest r (m * 2 ^ e / (m' * 2 ^ e')) ∧
      Double.exact (.number (.ofModel (.pack
        (.div .binary64 (.finite sign m e hm) (.finite sign' m' e' hm'))))) =
        .finite (isNegativeSign sign ^^ isNegativeSign sign') r := by
  obtain ⟨t, ht⟩ : ∃ t : ℤ, t = min (e - e')
      (max ((m.log2 + 1 + e) - (m'.log2 + 1 + e') - 53) (-1074)) := ⟨_, rfl⟩
  obtain ⟨k, hk⟩ : ∃ k : ℕ, e - e' = t + k :=
    Int.le.dest (show t ≤ e - e' by omega) |>.imp fun _ h => h.symm
  have hd : (0 : ℚ) < m' := by exact_mod_cast hm'
  -- The dividend is shifted so far that the quotient has 53 bits, or reaches the least one.
  have hquotient := quotient_eq m hm' hk
  have hdescribes := describes_fraction (m <<< k / m') (Nat.mod_lt (m <<< k) hm')
  rw [← hquotient] at hdescribes
  have hsize : 52 ≤ (m <<< k / m').log2 ∨ t ≤ -1074 := by
    by_cases hleast : t ≤ -1074
    · exact .inr hleast
    · left
      -- The dividend has at least as many bits more than the divisor as the quotient needs.
      have hbits : 2 ^ 52 ≤ m <<< k / m' := by
        rw [Nat.le_div_iff_mul_le hm', Nat.shiftLeft_eq]
        calc 2 ^ 52 * m' ≤ 2 ^ 52 * 2 ^ (m'.log2 + 1) :=
              Nat.mul_le_mul_left _ Nat.lt_log2_self.le
          _ ≤ 2 ^ (m.log2 + k) := by
            rw [← pow_add]
            exact Nat.pow_le_pow_right two_pos (by omega)
          _ ≤ m * 2 ^ k := by
            rw [pow_add]
            exact Nat.mul_le_mul_right _ (Nat.log2_self_le hm.ne')
      exact (Nat.le_log2 (by omega)).2 hbits
  have hcore : divCore .binary64 m e m' e' =
      (m <<< k / m', t, accuracyOfFraction (m <<< k % m') m') := by
    have hmin : Format.binary64.minExponent = -1074 := rfl
    have hwidth : (Format.binary64.mantissaBits : ℤ) = 53 := rfl
    have htarget : min (e - e') (Format.binary64.targetExponent
        (totalExponent m e - totalExponent m' e')) = t := by
      rw [ht, Format.targetExponent, totalExponent, totalExponent, hmin, hwidth]
    have hamount : (e - e' - t).toNat = k := by omega
    unfold divCore
    simp only [htarget, hamount]
  have hround := exact_roundWithAccuracy (sign / sign') hdescribes hsize hle
  rw [isNegativeSign_div] at hround
  unfold UnpackedFloat.div
  simp only [hcore]
  exact hround

/-- A quotient of finite numbers is the nearest number to the exact quotient. -/
theorem exact_div {x y : Float} {negative negative' : Bool} {p q : ℚ}
    (hx : Double.exact (.number x) = .finite negative p)
    (hy : Double.exact (.number y) = .finite negative' q) (hq : q ≠ 0)
    (hle : p / q ≤ largestValue) :
    ∃ r, IsNearest r (p / q) ∧
      Double.exact (.number (x / y)) = .finite (negative ^^ negative') r := by
  rcases unpack_of_exact hy with ⟨hzero, -⟩ | ⟨m', e', hm', -, -, rfl, hy'⟩
  · exact (hq hzero).elim
  have hdiv : x / y = .ofModel (.pack (.div .binary64 x.toModel.unpack y.toModel.unpack)) := rfl
  rw [hdiv, hy']
  rcases unpack_of_exact hx with ⟨rfl, hx'⟩ | ⟨m, e, hm, -, -, rfl, hx'⟩
  · -- Zero over anything is zero.
    rw [hx', zero_div]
    refine ⟨0, .self isShort_zero, ?_⟩
    have hzero := exact_of_zero (unpack_pack_zero (signOf negative / signOf negative'))
    rw [isNegativeSign_div, isNegativeSign_signOf, isNegativeSign_signOf] at hzero
    exact hzero
  · rw [hx']
    have h := exact_div_finite (signOf negative) (signOf negative') e e' hm hm' hle
    rwa [isNegativeSign_signOf, isNegativeSign_signOf] at h

/-- Multiplying finite numbers rounds their product. -/
theorem exact_mul_finite (sign sign' : Sign) {m m' : ℕ} (e e' : ℤ) (hm : 0 < m) (hm' : 0 < m')
    (hsize : 52 ≤ (m * m').log2 ∨ e + e' ≤ -1074)
    (hle : m * 2 ^ e * (m' * 2 ^ e') ≤ largestValue) :
    ∃ r, IsNearest r (m * 2 ^ e * (m' * 2 ^ e')) ∧
      Double.exact (.number (.ofModel (.pack
        (.mul .binary64 (.finite sign m e hm) (.finite sign' m' e' hm'))))) =
        .finite (isNegativeSign sign ^^ isNegativeSign sign') r := by
  -- The product of the mantissas is exact, in the exponent that both have together.
  have hdescribes : Describes (.ofMantissaAndAccuracy (m * m') .exact)
      (m * 2 ^ e * (m' * 2 ^ e') / 2 ^ (e + e')) := by
    show (m * 2 ^ e * (m' * 2 ^ e') / 2 ^ (e + e') : ℚ) = (m * m' : ℕ)
    rw [zpow_add₀ two_ne_zero]
    push_cast
    field_simp
  rw [← isNegativeSign_mul]
  exact exact_roundWithAccuracy (sign * sign') hdescribes hsize hle

/-- Multiplying numbers rounds their product. -/
theorem exact_mul {x y : Float} {negative negative' : Bool} {p q : ℚ}
    (hx : Double.exact (.number x) = .finite negative p)
    (hy : Double.exact (.number y) = .finite negative' q) (hle : p * q ≤ largestValue) :
    ∃ r, IsNearest r (p * q) ∧
      Double.exact (.number (x * y)) = .finite (negative ^^ negative') r := by
  -- A product with zero as a factor.
  have hmul : x * y = .ofModel (.pack (.mul .binary64 x.toModel.unpack y.toModel.unpack)) := rfl
  have hzero : Double.exact (.number (.ofModel (.pack (.zero (signOf negative * signOf negative'))))) =
      .finite (negative ^^ negative') 0 := by
    have h := exact_of_zero (unpack_pack_zero (signOf negative * signOf negative'))
    rwa [isNegativeSign_mul, isNegativeSign_signOf, isNegativeSign_signOf] at h
  rw [hmul]
  rcases unpack_of_exact hx with ⟨rfl, hx'⟩ | ⟨m, e, hm, hstored, -, rfl, hx'⟩
  · -- The first factor is zero, and then the second one.
    rw [hx', zero_mul]
    rcases unpack_of_exact hy with ⟨-, hy'⟩ | ⟨m', e', hm', -, -, -, hy'⟩
    · rw [hy']
      exact ⟨0, .self isShort_zero, hzero⟩
    · rw [hy']
      exact ⟨0, .self isShort_zero, hzero⟩
  rcases unpack_of_exact hy with ⟨rfl, hy'⟩ | ⟨m', e', hm', hstored', -, rfl, hy'⟩
  · rw [hx', hy', mul_zero]
    exact ⟨0, .self isShort_zero, hzero⟩
  · rw [hx', hy']
    -- The product of two mantissas has more than enough bits, or both exponents are least.
    have hsize : 52 ≤ (m * m').log2 ∨ e + e' ≤ -1074 := by
      have hproduct : m * m' ≠ 0 := (Nat.mul_pos hm hm').ne'
      rcases hstored.normal with hnormal | hleast
      · left
        rw [Nat.le_log2 hproduct]
        exact hnormal.trans (Nat.le_mul_of_pos_right m hm')
      rcases hstored'.normal with hnormal | hleast'
      · left
        rw [Nat.le_log2 hproduct]
        exact hnormal.trans (Nat.le_mul_of_pos_left m' hm)
      · right
        omega
    have h := exact_mul_finite (signOf negative) (signOf negative') e e' hm hm' hsize hle
    rwa [isNegativeSign_signOf, isNegativeSign_signOf] at h

/-- The number nearest to a magnitude that is not too large. -/
theorem exact_nearest {q : ℚ} (negative : Bool) (hq : 0 ≤ q) (hle : q ≤ largestValue) :
    ∃ r, IsNearest r q ∧ Double.exact (Double.nearest negative q) = .finite negative r := by
  have hvalue := natAbs_num_div_den hq
  unfold Double.nearest
  split
  · next hpos =>
    -- A fraction is found by dividing.
    have h := exact_div_finite (signOf negative) .positive 0 0 hpos q.den_pos
    simp only [zpow_zero, mul_one, hvalue, isNegativeSign_signOf] at h
    obtain ⟨r, hr, hexact⟩ := h hle
    rw [show isNegativeSign .positive = false from rfl, Bool.xor_false] at hexact
    exact ⟨r, hr, hexact⟩
  · next hzero =>
    have hq0 : q = 0 := by
      rw [← hvalue, Nat.eq_zero_of_not_pos hzero, Nat.cast_zero, zero_div]
    have h := exact_of_zero (unpack_pack_zero (signOf negative))
    rw [isNegativeSign_signOf] at h
    rw [hq0]
    exact ⟨0, .self isShort_zero, h⟩

/-- A mantissa that is shifted to the left under a smaller exponent keeps its value. -/
theorem shiftLeft_mul_zpow (m k : ℕ) (e : ℤ) : ((m <<< k : ℕ) : ℚ) * 2 ^ (e - k) = m * 2 ^ e := by
  rw [Nat.shiftLeft_eq, Nat.cast_mul, Nat.cast_pow, Nat.cast_ofNat, zpow_sub₀ two_ne_zero,
    zpow_natCast]
  field_simp

/-- Rounding gives a nearest short magnitude. The mantissa is filled up to 53 bits before. -/
theorem exact_round (sign : Sign) {m : ℕ} (e : ℤ) (hm : 0 < m) (hle : m * 2 ^ e ≤ largestValue) :
    ∃ r, IsNearest r (m * 2 ^ e) ∧
      Double.exact (.number (.ofModel (.pack (round .binary64 sign m e)))) =
        .finite (isNegativeSign sign) r := by
  obtain ⟨k, hk⟩ : ∃ k, (e - Format.binary64.targetExponent (totalExponent m e)).toNat = k :=
    ⟨_, rfl⟩
  have hround : round .binary64 sign m e =
      roundWithAccuracy .binary64 sign (m <<< k) (e - k) .exact := by
    unfold UnpackedFloat.round decreaseExponent
    simp only [hk]
  have hdescribes : Describes (.ofMantissaAndAccuracy (m <<< k) .exact)
      (m * 2 ^ e / 2 ^ (e - k)) := by
    show (m * 2 ^ e / 2 ^ (e - k) : ℚ) = (m <<< k : ℕ)
    rw [div_eq_iff (by positivity), shiftLeft_mul_zpow]
  have hsize : 52 ≤ (m <<< k).log2 ∨ e - k ≤ -1074 := by
    rw [targetExponent_eq] at hk
    by_cases hleast : e - k ≤ -1074
    · exact .inr hleast
    · left
      -- The shift fills up the bits.
      have hbits : 2 ^ 52 ≤ m <<< k := by
        rw [Nat.shiftLeft_eq]
        calc 2 ^ 52 ≤ 2 ^ (m.log2 + k) := Nat.pow_le_pow_right two_pos (by omega)
          _ ≤ m * 2 ^ k := by
            rw [pow_add]
            exact Nat.mul_le_mul_right _ (Nat.log2_self_le hm.ne')
      exact (Nat.le_log2 (by omega)).2 hbits
  rw [hround]
  exact exact_roundWithAccuracy sign hdescribes hsize hle

/-! ## Literals -/

/-- Natural numbers that are short are not above the largest number. -/
theorem natCast_le_largestValue {n : ℕ} (h : n ≤ 2 ^ 53) : (n : ℚ) ≤ largestValue := by
  have hpower : (2 : ℚ) ≤ 2 ^ ((971 : ℕ) : ℤ) := by
    rw [zpow_natCast]
    exact le_self_pow₀ one_le_two (by norm_num)
  rw [largestValue, natCast_largest]
  calc (n : ℚ) ≤ (2 ^ 53 - 1 : ℕ) * 2 := by exact_mod_cast h.trans (by norm_num)
    _ ≤ (2 ^ 53 - 1 : ℕ) * 2 ^ ((971 : ℕ) : ℤ) := mul_le_mul_of_nonneg_left hpower (by positivity)

/-- A natural number with 53 bits is exact. -/
theorem exact_natCast {n : ℕ} (h : n < 2 ^ 53) :
    Double.exact (.number n.toUInt64.toFloat) = .finite false n := by
  -- The conversion of a machine word loses nothing below `2 ^ 53`.
  have hn : n.toUInt64.toNat = n := by
    rw [Nat.toUInt64_eq, UInt64.toNat_ofNat', Nat.mod_eq_of_lt (by omega)]
  have hfloat : n.toUInt64.toFloat = .ofModel (.pack (.normalize .binary64 n 0 .positive)) := by
    show Float.ofModel (.pack (.normalize .binary64 (n.toUInt64.toNat : ℤ) 0 .positive)) = _
    rw [hn]
  rw [hfloat]
  rcases Nat.eq_zero_or_pos n with rfl | hpos
  · exact exact_of_zero (unpack_pack_zero .positive)
  · -- The integer is rounded to the number that it already is.
    have hnormalize : normalize .binary64 (n : ℤ) 0 .positive = round .binary64 .positive n 0 := by
      have hcompare : compare (n : ℤ) 0 = .gt := Int.compare_eq_gt.2 (by omega)
      unfold UnpackedFloat.normalize
      rw [hcompare]
      rfl
    obtain ⟨r, hr, hexact⟩ := exact_round .positive 0 hpos (by
      rw [zpow_zero, mul_one]
      exact natCast_le_largestValue h.le)
    rw [zpow_zero, mul_one] at hr
    rw [hnormalize, hexact, hr.eq_of_short (isShort_natCast h.le)]
    rfl

/-- The powers of ten that a literal is multiplied or divided by are exact. -/
theorem exact_powerOfTen : ∀ k : Fin Float.exactlyRepresentablePowersOfTen.size,
    Double.exact (.number Float.exactlyRepresentablePowersOfTen[k]) =
      .finite false (10 ^ k.val : ℕ) := by
  decide +kernel

/-- A short literal with places is the nearest number. -/
theorem exact_ofScientific_places {m k : ℕ} (hm : m < 2 ^ 53) (hk : k ≤ 22) :
    ∃ r, IsNearest r (m / 10 ^ k) ∧
      Double.exact (OfScientific.ofScientific m true k) = .finite false r := by
  have hsize : k < Float.exactlyRepresentablePowersOfTen.size := by
    show k < 23
    omega
  -- Small literals are quotients by a power of ten that is in the table.
  have hliteral : (OfScientific.ofScientific m true k : Double) =
      .number (m.toUInt64.toFloat / Float.exactlyRepresentablePowersOfTen[k]) := by
    show Double.number (Float.ofScientific m true k) = _
    unfold Float.ofScientific
    rw [dif_pos ⟨hm, hk⟩]
    rfl
  have hpower : ((10 ^ k : ℕ) : ℚ) = 10 ^ k := by push_cast; rfl
  have hle : (m / (10 ^ k : ℕ) : ℚ) ≤ largestValue := by
    refine le_trans (div_le_self (by positivity) ?_) (natCast_le_largestValue hm.le)
    exact_mod_cast Nat.one_le_pow _ _ (by norm_num)
  obtain ⟨r, hr, hexact⟩ := exact_div (exact_natCast hm) (exact_powerOfTen ⟨k, hsize⟩)
    (by positivity) hle
  rw [hpower] at hr
  rw [hliteral]
  exact ⟨r, hr, hexact⟩

/-- A literal without places is the nearest number. -/
theorem exact_ofScientific_whole {m : ℕ} (hle : (m : ℚ) ≤ largestValue) :
    ∃ r, IsNearest r m ∧ Double.exact (OfScientific.ofScientific m false 0) = .finite false r := by
  by_cases hm : m < 2 ^ 53
  · -- The mantissa fits, and there are no places to divide by.
    have hliteral : (OfScientific.ofScientific m false 0 : Double) =
        .number (m.toUInt64.toFloat * Float.exactlyRepresentablePowersOfTen[0]) := by
      show Double.number (Float.ofScientific m false 0) = _
      unfold Float.ofScientific
      rw [dif_pos ⟨hm, Nat.zero_le _⟩]
      rfl
    have hone : (m : ℚ) * (10 ^ 0 : ℕ) = m := by rw [pow_zero, Nat.cast_one, mul_one]
    have hle' : (m : ℚ) * (10 ^ 0 : ℕ) ≤ largestValue := by
      rw [hone]
      exact hle
    obtain ⟨r, hr, hexact⟩ := exact_mul (exact_natCast hm) (exact_powerOfTen ⟨0, by decide⟩) hle'
    rw [hone] at hr
    rw [hliteral]
    exact ⟨r, hr, hexact⟩
  · -- A greater one is brought in by a multiplication, whose exact result it is.
    have hpos : 0 < m := by omega
    have hliteral : (OfScientific.ofScientific m false 0 : Double) = .number (.ofModel (.pack
        (.mul .binary64 (.finite .positive (m <<< 53) (-53) (by rw [Nat.shiftLeft_eq]; positivity))
          (.finite .positive (10 ^ 0) 0 (by norm_num))))) := by
      show Double.number (Float.ofScientific m false 0) = _
      unfold Float.ofScientific
      rw [dif_neg (by omega)]
      show Double.number (.ofModel (.pack (UnpackedFloat.ofScientific .binary64 m 0))) = _
      unfold UnpackedFloat.ofScientific
      have hpowers : (0 : ℤ) < 2 ^ Format.binary64.exponentBits := by positivity
      rw [dif_neg hpos.ne', if_neg (by omega), if_neg (by omega), if_pos le_rfl]
      rfl
    have hvalue : ((m <<< 53 : ℕ) : ℚ) * 2 ^ (-53 : ℤ) * ((10 ^ 0 : ℕ) * 2 ^ (0 : ℤ)) = m := by
      rw [pow_zero, Nat.cast_one, zpow_zero, mul_one, mul_one, Nat.shiftLeft_eq, Nat.cast_mul,
        zpow_neg]
      exact mul_inv_cancel_right₀ (by positivity) _
    have hsize : 52 ≤ (m <<< 53 * 10 ^ 0).log2 := by
      have hbits : 2 ^ 52 ≤ m <<< 53 * 10 ^ 0 := by
        rw [Nat.shiftLeft_eq]
        omega
      exact (Nat.le_log2 (by omega)).2 hbits
    have h := exact_mul_finite .positive .positive (-53) 0
      (by rw [Nat.shiftLeft_eq]; positivity) (by norm_num : 0 < 10 ^ 0) (.inl hsize)
    rw [hvalue] at h
    rw [hliteral]
    exact h hle

/-! ## The order of numbers -/

/-- A magnitude with a sign. -/
def signed (negative : Bool) (magnitude : ℚ) : ℚ := if negative then -magnitude else magnitude

/-- The greater exponent belongs to the greater number, since a mantissa with a greater exponent is
filled. -/
theorem stored_lt_of_exponent_lt {m m' : ℕ} {e e' : ℤ} (h : IsStored m e) (h' : IsStored m' e')
    (hlt : e < e') : (m * 2 ^ e : ℚ) < m' * 2 ^ e' := by
  have hfilled : 2 ^ 52 ≤ m' := h'.normal.resolve_right (by have := h.le; omega)
  have hexponent : (2 : ℚ) ^ (e + 1) ≤ 2 ^ e' := zpow_le_zpow_right₀ one_le_two hlt
  have hunit : (0 : ℚ) < 2 ^ e := by positivity
  calc (m * 2 ^ e : ℚ) < 2 ^ 53 * 2 ^ e := mul_lt_mul_of_pos_right (by exact_mod_cast h.lt) hunit
    _ = 2 ^ 52 * 2 ^ (e + 1) := by
      rw [zpow_add_one₀ two_ne_zero]
      ring
    _ ≤ m' * 2 ^ e' := mul_le_mul (by exact_mod_cast hfilled) hexponent (by positivity) (by positivity)

/-- Stored numbers are ordered by their exponents first. -/
theorem compare_stored {m m' : ℕ} {e e' : ℤ} (h : IsStored m e) (h' : IsStored m' e') :
    (compare e e').then (compare m m') = compare (m * 2 ^ e : ℚ) (m' * 2 ^ e') := by
  -- The exponents decide, and the mantissas do where the exponents are the same.
  rcases lt_trichotomy e e' with hlt | rfl | hgt
  · rw [compare_lt_iff_lt.2 hlt, compare_lt_iff_lt.2 (stored_lt_of_exponent_lt h h' hlt)]
    rfl
  · have hunit : (0 : ℚ) < 2 ^ e := by positivity
    rw [compare_eq_iff_eq.2 rfl, Ordering.eq_then]
    rcases lt_trichotomy m m' with hlt | rfl | hgt
    · rw [compare_lt_iff_lt.2 hlt, compare_lt_iff_lt.2]
      exact mul_lt_mul_of_pos_right (by exact_mod_cast hlt) hunit
    · rw [compare_eq_iff_eq.2 rfl, compare_eq_iff_eq.2 rfl]
    · rw [compare_gt_iff_gt.2 hgt, compare_gt_iff_gt.2]
      exact mul_lt_mul_of_pos_right (by exact_mod_cast hgt) hunit
  · rw [compare_gt_iff_gt.2 hgt, compare_gt_iff_gt.2 (stored_lt_of_exponent_lt h' h hgt)]
    rfl

/-- Opposite numbers are ordered the other way round. -/
theorem swap_compare (a b : ℚ) : (compare a b).swap = compare (-a) (-b) := by
  rcases lt_trichotomy a b with hlt | rfl | hgt
  · rw [compare_lt_iff_lt.2 hlt, compare_gt_iff_gt.2 (neg_lt_neg hlt)]
    rfl
  · rw [compare_eq_iff_eq.2 rfl, compare_eq_iff_eq.2 rfl]
    rfl
  · rw [compare_gt_iff_gt.2 hgt, compare_lt_iff_lt.2 (neg_lt_neg hgt)]
    rfl

/-- Zero is its own opposite. -/
@[simp] theorem signed_zero (negative : Bool) : signed negative 0 = 0 := by
  cases negative with
  | true => exact neg_zero
  | false => rfl

/-- A magnitude that is not zero tells its sign. -/
theorem signed_injective {negative negative' : Bool} {q : ℚ} (hq : 0 < q)
    (h : signed negative q = signed negative' q) : negative = negative' := by
  -- A positive number is not its own negation.
  cases negative with
  | true =>
    cases negative' with
    | true => rfl
    | false =>
      have hneg : -q = q := h
      linarith
  | false =>
    cases negative' with
    | true =>
      have hneg : q = -q := h
      linarith
    | false => rfl

/-- Numbers with rational values are compared by them. -/
theorem compare_eq {x y : Float} {negative negative' : Bool} {p q : ℚ}
    (hx : Double.exact (.number x) = .finite negative p)
    (hy : Double.exact (.number y) = .finite negative' q) :
    x.toModel.unpack.compare y.toModel.unpack =
      some (compare (signed negative p) (signed negative' q)) := by
  have hpositive : ∀ {m : ℕ} (e : ℤ), 0 < m → (0 : ℚ) < m * 2 ^ e := fun e hm =>
    mul_pos (by exact_mod_cast hm) (by positivity)
  rcases unpack_of_exact hx with ⟨rfl, hx'⟩ | ⟨m, e, hm, hstored, -, rfl, hx'⟩
  · rw [signed_zero, hx']
    -- The first number is zero, so the sign of the second one decides.
    rcases unpack_of_exact hy with ⟨rfl, hy'⟩ | ⟨m', e', hm', hstored', -, rfl, hy'⟩
    · rw [signed_zero, hy', compare_eq_iff_eq.2 rfl]
      rfl
    · have hq := hpositive e' hm'
      rw [hy']
      cases negative' with
      | false => exact congrArg some (compare_lt_iff_lt.2 hq).symm
      | true => exact congrArg some (compare_gt_iff_gt.2 (neg_neg_of_pos hq)).symm
  · have hp := hpositive e hm
    rw [hx']
    -- The second number is zero, so the sign of the first one decides.
    rcases unpack_of_exact hy with ⟨rfl, hy'⟩ | ⟨m', e', hm', hstored', -, rfl, hy'⟩
    · rw [signed_zero, hy']
      cases negative with
      | false => exact congrArg some (compare_gt_iff_gt.2 hp).symm
      | true => exact congrArg some (compare_lt_iff_lt.2 (neg_neg_of_pos hp)).symm
    · have hq := hpositive e' hm'
      have hsame := compare_stored hstored hstored'
      rw [hy']
      -- Magnitudes decide only under the same sign.
      cases negative with
      | false =>
        cases negative' with
        | false => exact congrArg some hsame
        | true => exact congrArg some (compare_gt_iff_gt.2 ((neg_neg_of_pos hq).trans hp)).symm
      | true =>
        cases negative' with
        | false => exact congrArg some (compare_lt_iff_lt.2 ((neg_neg_of_pos hp).trans hq)).symm
        | true => exact congrArg some ((congrArg Ordering.swap hsame).trans (swap_compare _ _))

/-! ## Sums -/

/-- Normalizing a mantissa with a sign rounds the value. -/
theorem exact_normalize (z e : ℤ) (hle : |(z : ℚ)| * 2 ^ e ≤ largestValue) :
    ∃ negative r, IsNearest r (|(z : ℚ)| * 2 ^ e) ∧ 0 ≤ signed negative r * z ∧
      Double.exact (.number (.ofModel (.pack (normalize .binary64 z e .positive)))) =
        .finite negative r := by
  rcases lt_trichotomy z 0 with hneg | rfl | hpos
  · -- A negative sum is rounded as its opposite is.
    have hcompare : compare z 0 = .lt := Int.compare_eq_lt.2 hneg
    have habs : |(z : ℚ)| = ((-z).toNat : ℕ) := by
      rw [abs_of_neg (by exact_mod_cast hneg)]
      exact_mod_cast (Int.toNat_of_nonneg (by omega : 0 ≤ -z)).symm
    rw [habs] at hle ⊢
    obtain ⟨r, hr, hexact⟩ := exact_round .negative e (by omega : 0 < (-z).toNat) hle
    refine ⟨true, r, hr, ?_, ?_⟩
    · have hz : (z : ℚ) ≤ 0 := by exact_mod_cast hneg.le
      exact mul_nonneg_of_nonpos_of_nonpos (neg_nonpos.2 hr.short.nonneg) hz
    · unfold UnpackedFloat.normalize
      rw [hcompare]
      exact hexact
  · refine ⟨false, 0, ?_, ?_, exact_of_zero (unpack_pack_zero .positive)⟩
    · rw [Int.cast_zero, abs_zero, zero_mul]
      exact .self isShort_zero
    · rw [Int.cast_zero, mul_zero]
  · have hcompare : compare z 0 = .gt := Int.compare_eq_gt.2 hpos
    have habs : |(z : ℚ)| = (z.toNat : ℕ) := by
      rw [abs_of_pos (by exact_mod_cast hpos)]
      exact_mod_cast (Int.toNat_of_nonneg hpos.le).symm
    rw [habs] at hle ⊢
    obtain ⟨r, hr, hexact⟩ := exact_round .positive e (by omega : 0 < z.toNat) hle
    refine ⟨false, r, hr, ?_, ?_⟩
    · have hz : (0 : ℚ) ≤ z := by exact_mod_cast hpos.le
      exact mul_nonneg hr.short.nonneg hz
    · unfold UnpackedFloat.normalize
      rw [hcompare]
      exact hexact

/-- A sign may be put in front of the first factor. -/
theorem signed_mul (negative : Bool) (a b : ℚ) : signed negative (a * b) = signed negative a * b := by
  cases negative with
  | true => exact (neg_mul a b).symm
  | false => rfl

/-- The sign of an integer, as a rational. -/
theorem cast_apply (negative : Bool) (m : ℕ) :
    (((signOf negative).apply m : ℤ) : ℚ) = signed negative m := by
  cases negative with
  | true => exact (Int.cast_neg _).trans (congrArg Neg.neg (Int.cast_natCast m))
  | false => exact Int.cast_natCast m

/-- A stored number survives packing. -/
theorem exact_pack_stored (negative : Bool) {m : ℕ} {e : ℤ} (hm : 0 < m) (h : IsStored m e)
    (he : e ≤ 971) : IsNearest (m * 2 ^ e) |signed negative (m * 2 ^ e)| ∧
      0 ≤ signed negative (m * 2 ^ e) * signed negative (m * 2 ^ e) ∧
      Double.exact (.number (.ofModel (.pack (.finite (signOf negative) m e hm)))) =
        .finite negative (m * 2 ^ e) := by
  have hshort : IsShort (m * 2 ^ e) := ⟨m, e, h.lt.le, h.le, rfl⟩
  have habs : |signed negative (m * 2 ^ e)| = m * 2 ^ e := by
    cases negative with
    | true => exact (abs_neg _).trans (abs_of_nonneg hshort.nonneg)
    | false => exact abs_of_nonneg hshort.nonneg
  rw [habs]
  have hexact := exact_of_finite (@unpack_pack_finite (signOf negative) m e hm h he)
  rw [isNegativeSign_signOf] at hexact
  exact ⟨.self hshort, mul_self_nonneg _, hexact⟩

/-- Adding numbers rounds their sum. -/
theorem exact_add {x y : Float} {negative negative' : Bool} {p q : ℚ}
    (hx : Double.exact (.number x) = .finite negative p)
    (hy : Double.exact (.number y) = .finite negative' q)
    (hle : |signed negative p + signed negative' q| ≤ largestValue) :
    ∃ sign r, IsNearest r |signed negative p + signed negative' q| ∧
      0 ≤ signed sign r * (signed negative p + signed negative' q) ∧
      Double.exact (.number (x + y)) = .finite sign r := by
  have hadd : x + y = .ofModel (.pack (.add .binary64 x.toModel.unpack y.toModel.unpack)) := rfl
  rw [hadd]
  rcases unpack_of_exact hx with ⟨rfl, hx'⟩ | ⟨m, e, hm, hstored, he, rfl, hx'⟩
  · rcases unpack_of_exact hy with ⟨rfl, hy'⟩ | ⟨m', e', hm', hstored', he', rfl, hy'⟩
    · -- Both are zero.
      rw [hx', hy', signed_zero, signed_zero, add_zero, abs_zero]
      have hzero : ∀ sign : Sign, ∃ flag r, IsNearest r 0 ∧ 0 ≤ signed flag r * 0 ∧
          Double.exact (.number (.ofModel (.pack (.zero sign)))) = .finite flag r := fun sign =>
        ⟨_, 0, .self isShort_zero, (mul_zero _).ge, exact_of_zero (unpack_pack_zero sign)⟩
      unfold UnpackedFloat.add
      dsimp only
      split
      · exact hzero _
      · exact hzero _
    · -- One of the numbers is zero, and the other one is the sum.
      obtain ⟨hnearest, hsign, hexact⟩ := exact_pack_stored negative' hm' hstored' he'
      rw [hx', hy', signed_zero, zero_add]
      exact ⟨negative', _, hnearest, hsign, hexact⟩
  · rcases unpack_of_exact hy with ⟨rfl, hy'⟩ | ⟨m', e', hm', -, -, rfl, hy'⟩
    · obtain ⟨hnearest, hsign, hexact⟩ := exact_pack_stored negative hm hstored he
      rw [hx', hy', signed_zero, add_zero]
      exact ⟨negative, _, hnearest, hsign, hexact⟩
    · -- Both mantissas are brought to the smaller exponent.
      obtain ⟨k, hk⟩ : ∃ k : ℕ, (e - min e e').toNat = k := ⟨_, rfl⟩
      obtain ⟨k', hk'⟩ : ∃ k' : ℕ, (e' - min e e').toNat = k' := ⟨_, rfl⟩
      obtain ⟨z, hz⟩ : ∃ z : ℤ, (signOf negative).apply (m <<< k : ℕ) +
          (signOf negative').apply (m' <<< k' : ℕ) = z := ⟨_, rfl⟩
      have hsum : signed negative (m * 2 ^ e) + signed negative' (m' * 2 ^ e') =
          z * 2 ^ min e e' := by
        have hmin : e - k = min e e' := by omega
        have hmin' : e' - k' = min e e' := by omega
        rw [← shiftLeft_mul_zpow m k e, ← shiftLeft_mul_zpow m' k' e', hmin, hmin', signed_mul,
          signed_mul, ← add_mul, ← hz, Int.cast_add, cast_apply, cast_apply]
      have hnormalize : UnpackedFloat.add .binary64 x.toModel.unpack y.toModel.unpack =
          normalize .binary64 z (min e e') .positive := by
        rw [hx', hy']
        unfold UnpackedFloat.add decreaseExponent
        dsimp only
        rw [hk, hk', ← hz]
      have hpower : (0 : ℚ) < 2 ^ min e e' := by positivity
      rw [hsum, abs_mul, abs_of_pos hpower] at hle ⊢
      obtain ⟨sign, r, hnearest, hsign, hexact⟩ := exact_normalize z (min e e') hle
      rw [hnormalize]
      refine ⟨sign, r, hnearest, ?_, hexact⟩
      rw [← mul_assoc]
      exact mul_nonneg hsign hpower.le

end CssColor.Binary
