import CssColor.Number.Text
import CssColor.Proofs.Number.Rounding

/-!
# Rounding to decimals

`Decimal.decade` finds the decade of a magnitude, `Decimal.withPlaces` the nearest decimal with a
number of places, and `Decimal.trim` the decimal of the same magnitude without zeros at its end,
of which there is only one (`Decimal.IsTrimmed.eq_of_magnitude_eq`).
-/

namespace CssColor.Decimal

/-! ## The decade of a magnitude -/

/-- A number lies in the decade of its logarithm. -/
theorem log10_spec {m : ℕ} (hm : 0 < m) : 10 ^ log10 m ≤ m ∧ m < 10 ^ (log10 m + 1) := by
  induction m using log10.induct with
  | case1 m hlt =>
    rw [log10, if_pos hlt]
    omega
  | case2 m hge ih =>
    obtain ⟨hlow, hhigh⟩ := ih (by omega)
    rw [log10, if_neg hge, pow_succ, pow_succ]
    rw [pow_succ] at hhigh
    omega

/-- A positive magnitude lies in its decade. -/
theorem decade_spec {x : ℚ} (hx : 0 < x) :
    (10 : ℚ) ^ decade x ≤ x ∧ x < (10 : ℚ) ^ (decade x + 1) := by
  obtain ⟨num, hnum⟩ : ∃ num, x.num.natAbs = num := ⟨_, rfl⟩
  obtain ⟨den, hden⟩ : ∃ den, x.den = den := ⟨_, rfl⟩
  have hpos : 0 < num := hnum ▸ Int.natAbs_pos.2 (Rat.num_pos.2 hx).ne'
  have hdpos : 0 < den := hden ▸ x.den_pos
  -- The decade is found from the numerator and the denominator, which are integers.
  have hvalue : x = num / den := by rw [← hnum, ← hden, Binary.natAbs_num_div_den hx.le]
  have hdq : (0 : ℚ) < den := by exact_mod_cast hdpos
  unfold decade
  simp only [hnum, hden]
  split
  · next hle =>
    -- The whole part is in the decade.
    obtain ⟨hlow, hhigh⟩ := log10_spec (Nat.div_pos hle hdpos)
    generalize log10 (num / den) = k at hlow hhigh
    rw [Nat.le_div_iff_mul_le hdpos] at hlow
    rw [Nat.div_lt_iff_lt_mul hdpos] at hhigh
    rw [hvalue, le_div_iff₀ hdq, div_lt_iff₀ hdq, ← Nat.cast_succ, zpow_natCast, zpow_natCast]
    exact ⟨by exact_mod_cast hlow, by exact_mod_cast hhigh⟩
  · next hgt =>
    -- Below one it is the decade of the inverse, and a power of ten belongs to the decade it
    -- starts.
    have hquotient : 0 < (den - 1) / num := Nat.div_pos (by omega) hpos
    obtain ⟨hlow, hhigh⟩ := log10_spec hquotient
    generalize log10 ((den - 1) / num) = k at hlow hhigh
    rw [Nat.le_div_iff_mul_le hpos] at hlow
    rw [Nat.div_lt_iff_lt_mul hpos] at hhigh
    have hlow' : 10 ^ k * num < den := by omega
    have hhigh' : den ≤ 10 ^ (k + 1) * num := by omega
    have hsucc : -((k + 1 : ℕ) : ℤ) + 1 = -(k : ℤ) := by
      push_cast
      ring
    rw [hvalue, hsucc, zpow_neg, zpow_neg, zpow_natCast, zpow_natCast, inv_eq_one_div, inv_eq_one_div,
      div_le_div_iff₀ (by positivity) hdq, div_lt_div_iff₀ hdq (by positivity), one_mul,
      mul_comm (num : ℚ), mul_comm (num : ℚ)]
    exact ⟨by exact_mod_cast hhigh', by exact_mod_cast hlow'⟩

/-! ## The nearest decimal -/

/-- The integer that a quotient is rounded to is at most a half away from it. -/
theorem roundHalfEven_near (num : ℕ) {den : ℕ} (hden : 0 < den) :
    |(roundHalfEven num den : ℚ) - num / den| ≤ 1 / 2 := by
  have hdq : (0 : ℚ) < den := by exact_mod_cast hden
  have hparts : (num : ℚ) = den * (num / den : ℕ) + (num % den : ℕ) := by
    exact_mod_cast (Nat.div_add_mod num den).symm
  have hquotient : (num : ℚ) / den = (num / den : ℕ) + (num % den : ℕ) / den := by
    rw [div_eq_iff hdq.ne', add_mul, div_mul_cancel₀ _ hdq.ne', mul_comm ((num / den : ℕ) : ℚ)]
    exact hparts
  have hpositive : (0 : ℚ) ≤ (num % den : ℕ) / den := by positivity
  have hone : ((num % den : ℕ) / den : ℚ) < 1 :=
    (div_lt_one hdq).2 (by exact_mod_cast Nat.mod_lt num hden)
  unfold roundHalfEven
  rw [hquotient, abs_le]
  -- The remainder is compared with one half of the divisor.
  simp only
  split
  · next hlt =>
    have hhalf : ((num % den : ℕ) / den : ℚ) < 1 / 2 := by
      rw [div_lt_div_iff₀ hdq two_pos]
      exact_mod_cast (by omega : num % den * 2 < 1 * den)
    constructor <;> linarith
  · split
    · next hgt =>
      have hhalf : (1 / 2 : ℚ) < (num % den : ℕ) / den := by
        rw [div_lt_div_iff₀ two_pos hdq]
        exact_mod_cast (by omega : 1 * den < num % den * 2)
      push_cast
      constructor <;> linarith
    · -- From halfway the odd one of the two integers is left.
      next hge hle =>
      have hhalf : ((num % den : ℕ) / den : ℚ) = 1 / 2 := by
        rw [div_eq_div_iff hdq.ne' two_ne_zero]
        exact_mod_cast (by omega : num % den * 2 = 1 * den)
      have heven : ((num / den % 2 : ℕ) : ℚ) ≤ 1 := by
        exact_mod_cast (by omega : num / den % 2 ≤ 1)
      have hnonneg : (0 : ℚ) ≤ (num / den % 2 : ℕ) := by positivity
      push_cast at heven hnonneg ⊢
      constructor <;> linarith

/-- A magnitude is rounded to within a half of the last place. -/
theorem roundAt_near (places : ℕ) {x : ℚ} (hx : 0 ≤ x) :
    |(roundAt (-places) x : ℚ) - x * 10 ^ places| ≤ 1 / 2 := by
  have hvalue := Binary.natAbs_num_div_den hx
  -- Without places nothing is scaled, and the power of ten is one.
  cases places with
  | zero =>
    show |(roundHalfEven x.num.natAbs (x.den * Nat.pow 10 0) : ℚ) - x * 10 ^ 0| ≤ 1 / 2
    have h := roundHalfEven_near x.num.natAbs x.den_pos
    rw [hvalue] at h
    simpa using h
  | succ n =>
    show |(roundHalfEven (x.num.natAbs * Nat.pow 10 (n + 1)) x.den : ℚ) - x * 10 ^ (n + 1)| ≤ 1 / 2
    have h := roundHalfEven_near (x.num.natAbs * Nat.pow 10 (n + 1)) x.den_pos
    have hscaled : ((x.num.natAbs * Nat.pow 10 (n + 1) : ℕ) : ℚ) / x.den = x * 10 ^ (n + 1) := by
      rw [Nat.cast_mul, mul_div_right_comm, hvalue, Nat.pow_eq, Nat.cast_pow, Nat.cast_ofNat]
    rwa [hscaled] at h

/-! ## Decimals without zeros at the end -/

/-- The magnitude of a decimal. -/
def magnitude (d : Decimal) : ℚ := d.digits * 10 ^ d.exponent

/-- The magnitude of zero, with any sign and exponent. -/
@[simp] theorem magnitude_zero (negative : Bool) (exponent : ℤ) :
    magnitude ⟨negative, 0, exponent⟩ = 0 := by
  rw [magnitude, Nat.cast_zero, zero_mul]

/-- A magnitude has no sign. -/
theorem magnitude_nonneg (d : Decimal) : 0 ≤ magnitude d := by
  unfold magnitude
  positivity

/-- A decimal with places that the last digit is needed for. -/
structure IsTrimmed (d : Decimal) : Prop where
  exponent_nonpos : d.exponent ≤ 0
  last_digit : d.exponent < 0 → d.digits % 10 ≠ 0

/-- The magnitude of a decimal with places behind the point. -/
theorem magnitude_places (negative : Bool) (digits places : ℕ) :
    magnitude ⟨negative, digits, -places⟩ = digits / 10 ^ places := by
  rw [magnitude, zpow_neg, zpow_natCast, div_eq_mul_inv]

/-- Dropping zeros at the end keeps the value and leaves none of them, and adds neither digits nor
places. -/
theorem dropZeros_spec (digits places : ℕ) :
    ((dropZeros digits places).1 : ℚ) / 10 ^ (dropZeros digits places).2 = digits / 10 ^ places ∧
      ((dropZeros digits places).2 ≠ 0 → (dropZeros digits places).1 % 10 ≠ 0) ∧
      (dropZeros digits places).1 ≤ digits ∧ (dropZeros digits places).2 ≤ places := by
  fun_induction dropZeros digits places with
  | case1 digits => exact ⟨rfl, fun h => absurd rfl h, le_rfl, le_rfl⟩
  | case2 digits places hzero ih =>
    obtain ⟨hvalue, hlast, hdigits, hplaces⟩ := ih
    refine ⟨?_, hlast, hdigits.trans (Nat.div_le_self _ _), hplaces.trans (Nat.le_succ _)⟩
    have hdigits : (digits : ℚ) = (digits / 10 : ℕ) * 10 := by
      exact_mod_cast (Nat.div_mul_cancel (Nat.dvd_of_mod_eq_zero hzero)).symm
    rw [hvalue, hdigits, pow_succ, mul_div_mul_right _ _ (by norm_num)]
  | case3 digits places hlast => exact ⟨rfl, fun _ => hlast, le_rfl, le_rfl⟩

/-- The decimal without zeros at its end. -/
theorem trim_places (negative : Bool) (digits places : ℕ) :
    trim ⟨negative, digits, -places⟩ =
      ⟨negative, (dropZeros digits places).1, -((dropZeros digits places).2 : ℤ)⟩ := by
  cases places with
  | zero => simp [trim, dropZeros]
  | succ n => rfl

/-- No zero is left at the end. -/
theorem isTrimmed_trim (negative : Bool) (digits places : ℕ) :
    IsTrimmed (trim ⟨negative, digits, -places⟩) := by
  obtain ⟨-, hlast, -, -⟩ := dropZeros_spec digits places
  rw [trim_places]
  exact ⟨by simp, fun h => hlast (by simpa [Nat.pos_iff_ne_zero] using h)⟩

/-- The value does not change. -/
theorem magnitude_trim (negative : Bool) (digits places : ℕ) :
    magnitude (trim ⟨negative, digits, -places⟩) = digits / 10 ^ places := by
  rw [trim_places, magnitude_places, (dropZeros_spec digits places).1]

/-- A decimal without zeros at its end has no positive exponent. -/
theorem IsTrimmed.exists_places {d : Decimal} (h : IsTrimmed d) :
    ∃ places : ℕ, d.exponent = -places ∧ (places ≠ 0 → d.digits % 10 ≠ 0) := by
  refine ⟨d.exponent.natAbs, ?_, fun hplaces => h.last_digit ?_⟩
  · have := h.exponent_nonpos
    omega
  · have := h.exponent_nonpos
    omega

/-- There is one decimal of a sign and a magnitude without zeros at its end. -/
theorem IsTrimmed.eq_of_magnitude_eq {a b : Decimal} (ha : IsTrimmed a) (hb : IsTrimmed b)
    (hsign : a.negative = b.negative) (hmagnitude : magnitude a = magnitude b) : a = b := by
  obtain ⟨negative, digits, exponent⟩ := a
  obtain ⟨negative', digits', exponent'⟩ := b
  obtain ⟨places, hplaces, hlast⟩ := ha.exists_places
  obtain ⟨places', hplaces', hlast'⟩ := hb.exists_places
  dsimp only at hsign hplaces hplaces' hlast hlast'
  subst hsign hplaces hplaces'
  rw [magnitude_places, magnitude_places, div_eq_div_iff (by positivity) (by positivity)] at hmagnitude
  have hdigits : digits * 10 ^ places' = digits' * 10 ^ places := by exact_mod_cast hmagnitude
  -- More places on one side would be a zero at its end.
  rcases lt_trichotomy places places' with hlt | rfl | hlt
  · obtain ⟨k, rfl⟩ := Nat.exists_eq_add_of_lt hlt
    refine absurd ?_ (hlast' (by omega))
    have hmultiple : digits' = digits * 10 ^ k * 10 := by
      refine Nat.eq_of_mul_eq_mul_right (Nat.pow_pos (n := places) (Nat.succ_pos 9)) ?_
      rw [← hdigits]
      ring
    rw [hmultiple, Nat.mul_mod_left]
  · rw [Nat.eq_of_mul_eq_mul_right (by positivity) hdigits]
  · obtain ⟨k, rfl⟩ := Nat.exists_eq_add_of_lt hlt
    refine absurd ?_ (hlast (by omega))
    have hmultiple : digits = digits' * 10 ^ k * 10 := by
      refine Nat.eq_of_mul_eq_mul_right (Nat.pow_pos (n := places') (Nat.succ_pos 9)) ?_
      rw [hdigits]
      ring
    rw [hmultiple, Nat.mul_mod_left]

end CssColor.Decimal
