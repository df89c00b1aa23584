import CssColor.Proofs.Number.Binary

/-!
# Numbers with rational values

The finite numbers of 64 bits through their rational values (`Double.HasValue`): order, signs,
products, bounds and literals. What `Scalar.toFinite` gives has a value, and a number that has one
stays as it is.
-/

namespace CssColor.Double

open Binary
open Extended (largestValue)

/-- A finite number has the value `q`. -/
def HasValue (x : Double) (q : ℚ) : Prop :=
  ∃ negative magnitude, exact x = .finite negative magnitude ∧ signed negative magnitude = q

/-- A number whose exact form is finite has the value of that form. -/
theorem hasValue_of_exact {x : Double} {negative : Bool} {q : ℚ}
    (h : exact x = .finite negative q) : HasValue x (signed negative q) :=
  ⟨negative, q, h, rfl⟩

/-- A number whose exact form is finite is not the undefined one. -/
theorem eq_number_of_exact {x : Double} {negative : Bool} {q : ℚ}
    (h : exact x = .finite negative q) : ∃ value : Float, x = .number value := by
  cases x with
  | number value => exact ⟨value, rfl⟩
  | nan => cases h

/-- The exact form of a finite number has 53 bits at most. -/
theorem isShort_of_exact {x : Double} {negative : Bool} {q : ℚ}
    (h : exact x = .finite negative q) : IsShort q := by
  obtain ⟨value, rfl⟩ := eq_number_of_exact h
  rcases unpack_of_exact h with ⟨rfl, -⟩ | ⟨m, e, -, hstored, -, rfl, -⟩
  · exact isShort_zero
  · exact ⟨m, e, hstored.lt.le, hstored.le, rfl⟩

/-- No finite number is above the largest one. -/
theorem le_largestValue_of_exact {x : Double} {negative : Bool} {q : ℚ}
    (h : exact x = .finite negative q) : q ≤ largestValue := by
  obtain ⟨value, rfl⟩ := eq_number_of_exact h
  rcases unpack_of_exact h with ⟨rfl, -⟩ | ⟨m, e, -, hstored, he, rfl, -⟩
  · exact isShort_largestValue.nonneg
  · rw [largestValue, natCast_largest]
    have hm : m ≤ 2 ^ 53 - 1 := Nat.le_sub_one_of_lt hstored.lt
    exact mul_le_mul (by exact_mod_cast hm) (zpow_le_zpow_right₀ one_le_two he) (by positivity)
      (by positivity)

/-- A finite number is determined by its sign and its magnitude. -/
theorem eq_of_exact {x y : Double} {negative : Bool} {q : ℚ} (hx : exact x = .finite negative q)
    (hy : exact y = .finite negative q) : x = y := by
  obtain ⟨a, rfl⟩ := eq_number_of_exact hx
  obtain ⟨b, rfl⟩ := eq_number_of_exact hy
  have hpos : ∀ {m : ℕ} (e : ℤ), 0 < m → q = m * 2 ^ e → q ≠ 0 := by
    rintro m e hm rfl
    positivity
  rcases unpack_of_exact hx with ⟨hzero, hunpack⟩ | ⟨m, e, hm, hstored, -, hvalue, hunpack⟩
  · -- Both are zero, with the same sign.
    rcases unpack_of_exact hy with ⟨-, hunpack'⟩ | ⟨_, e', hm', -, -, hvalue', -⟩
    · rw [eq_of_toBits_eq ((toBits_of_zero hunpack).trans (toBits_of_zero hunpack').symm)]
    · exact absurd hzero (hpos e' hm' hvalue')
  · rcases unpack_of_exact hy with ⟨hzero, -⟩ | ⟨m', e', hm', hstored', -, hvalue', hunpack'⟩
    · exact absurd hzero (hpos e hm hvalue)
    · -- Both are stored with the mantissa and the exponent that their magnitude determines.
      have hcompare := compare_stored hstored hstored'
      rw [← hvalue, ← hvalue', compare_eq_iff_eq.2 rfl, Ordering.then_eq_eq] at hcompare
      have he : e = e' := compare_eq_iff_eq.1 hcompare.1
      have hmantissa : m = m' := compare_eq_iff_eq.1 hcompare.2
      subst he hmantissa
      rw [eq_of_toBits_eq ((toBits_of_finite hunpack).trans (toBits_of_finite hunpack').symm)]

/-- An operation with a finite result is a number. -/
theorem ofFloat_of_exact {x : Float} {negative : Bool} {q : ℚ}
    (h : exact (.number x) = .finite negative q) : ofFloat x = .number x := by
  have hnumber : x.isNaN = false := by
    show x.toModel.unpack.isNaN = false
    rcases unpack_of_exact h with ⟨-, hunpack⟩ | ⟨m, e, hm, -, -, -, hunpack⟩
    · rw [hunpack]
      rfl
    · rw [hunpack]
      rfl
  rw [ofFloat, hnumber]
  rfl

/-- The sign does not count for the absolute value. -/
theorem abs_signed {negative : Bool} {q : ℚ} (hq : 0 ≤ q) : |signed negative q| = q := by
  cases negative with
  | true => exact (abs_neg q).trans (abs_of_nonneg hq)
  | false => exact abs_of_nonneg hq

namespace HasValue

variable {x y : Double} {p q r : ℚ}

/-- A value is short up to its sign. -/
theorem isShort_abs (h : HasValue x q) : IsShort |q| := by
  obtain ⟨negative, magnitude, hexact, rfl⟩ := h
  have hshort := isShort_of_exact hexact
  rwa [abs_signed hshort.nonneg]

/-- Values lie between the largest number and its opposite. -/
theorem abs_le_largestValue (h : HasValue x q) : |q| ≤ largestValue := by
  obtain ⟨negative, magnitude, hexact, rfl⟩ := h
  rw [abs_signed (isShort_of_exact hexact).nonneg]
  exact le_largestValue_of_exact hexact

/-! ## Order -/

/-- Numbers are compared by their values. -/
theorem lt_iff (hx : HasValue x p) (hy : HasValue y q) : x < y ↔ p < q := by
  obtain ⟨negative, magnitude, hx, rfl⟩ := hx
  obtain ⟨negative', magnitude', hy, rfl⟩ := hy
  obtain ⟨a, rfl⟩ := eq_number_of_exact hx
  obtain ⟨b, rfl⟩ := eq_number_of_exact hy
  show decide (a.toModel < b.toModel) = true ↔ _
  rw [decide_eq_true_iff]
  show (a.toModel.unpack.compare b.toModel.unpack == some .lt) = true ↔ _
  rw [compare_eq hx hy, beq_iff_eq, Option.some.injEq, compare_lt_iff_lt]

/-- Numbers are compared by their values, equality included. -/
theorem le_iff (hx : HasValue x p) (hy : HasValue y q) : x ≤ y ↔ p ≤ q := by
  obtain ⟨negative, magnitude, hx, rfl⟩ := hx
  obtain ⟨negative', magnitude', hy, rfl⟩ := hy
  obtain ⟨a, rfl⟩ := eq_number_of_exact hx
  obtain ⟨b, rfl⟩ := eq_number_of_exact hy
  show decide (a.toModel ≤ b.toModel) = true ↔ _
  rw [decide_eq_true_iff]
  show (a.toModel.unpack.compare b.toModel.unpack).any (·.isLE) = true ↔ _
  rw [compare_eq hx hy, Option.any_some, Ordering.isLE_iff_ne_gt, ← compare_le_iff_le]

/-- Numbers are equal if their values are; zero has two signs. -/
theorem beq_iff (hx : HasValue x p) (hy : HasValue y q) : (x == y) = true ↔ p = q := by
  obtain ⟨negative, magnitude, hx, rfl⟩ := hx
  obtain ⟨negative', magnitude', hy, rfl⟩ := hy
  obtain ⟨a, rfl⟩ := eq_number_of_exact hx
  obtain ⟨b, rfl⟩ := eq_number_of_exact hy
  show (a.toModel.unpack.compare b.toModel.unpack == some .eq) = true ↔ _
  rw [compare_eq hx hy, beq_iff_eq, Option.some.injEq, compare_eq_iff_eq]

/-- What has a value is not undefined. -/
theorem isNaN_eq (hx : HasValue x p) : Number.isNaN x = false := by
  rw [Number.isNaN, (hx.beq_iff hx).2 rfl]
  rfl

/-- What has a value is finite. -/
theorem isFinite (hx : HasValue x p) : Scalar.isFinite x = true := by
  obtain ⟨negative, magnitude, hexact, -⟩ := hx
  show (Double.exact x).isFinite = true
  rw [hexact]
  rfl

/-! ## Arithmetic -/

/-- The opposite of a number has the opposite value. -/
theorem neg (hx : HasValue x p) : HasValue (-x) (-p) := by
  obtain ⟨negative, magnitude, hx, rfl⟩ := hx
  obtain ⟨a, rfl⟩ := eq_number_of_exact hx
  have hsign : Double.isNegativeSign (-Double.signOf negative) = !negative := by
    cases negative <;> rfl
  have hneg : -number a = number (.ofModel (.pack a.toModel.unpack.neg)) := rfl
  refine ⟨!negative, magnitude, ?_, ?_⟩
  · rw [hneg, ← hsign]
    -- Zero changes its sign too.
    rcases unpack_of_exact hx with ⟨rfl, hunpack⟩ | ⟨m, e, hm, hstored, he, rfl, hunpack⟩
    · rw [hunpack]
      exact exact_of_zero (unpack_pack_zero _)
    · rw [hunpack]
      exact exact_of_finite (unpack_pack_finite hstored he)
  · cases negative with
    | true => exact (neg_neg magnitude).symm
    | false => rfl

/-- A sum is the nearest number to the exact sum and has its sign. -/
theorem add (hx : HasValue x p) (hy : HasValue y q) (hle : |p + q| ≤ largestValue) :
    ∃ r, IsNearest |r| |p + q| ∧ 0 ≤ r * (p + q) ∧ HasValue (x + y) r := by
  obtain ⟨negative, magnitude, hx, rfl⟩ := hx
  obtain ⟨negative', magnitude', hy, rfl⟩ := hy
  obtain ⟨a, rfl⟩ := eq_number_of_exact hx
  obtain ⟨b, rfl⟩ := eq_number_of_exact hy
  obtain ⟨sign, r, hr, hsign, hexact⟩ := exact_add hx hy hle
  have hsum : number a + number b = number (a + b) := ofFloat_of_exact hexact
  refine ⟨signed sign r, ?_, hsign, sign, r, ?_, rfl⟩
  · rwa [abs_signed hr.short.nonneg]
  · rw [hsum, hexact]

/-- A product is the nearest number to the exact product and has its sign. -/
theorem mul (hx : HasValue x p) (hy : HasValue y q) (hle : |p * q| ≤ largestValue) :
    ∃ r, IsNearest |r| |p * q| ∧ 0 ≤ r * (p * q) ∧ HasValue (x * y) r := by
  obtain ⟨negative, magnitude, hx, rfl⟩ := hx
  obtain ⟨negative', magnitude', hy, rfl⟩ := hy
  obtain ⟨a, rfl⟩ := eq_number_of_exact hx
  obtain ⟨b, rfl⟩ := eq_number_of_exact hy
  rw [abs_mul, abs_signed (isShort_of_exact hx).nonneg, abs_signed (isShort_of_exact hy).nonneg]
    at hle ⊢
  obtain ⟨r, hr, hexact⟩ := exact_mul hx hy hle
  have hproduct : number a * number b = number (a * b) := ofFloat_of_exact hexact
  refine ⟨signed (negative ^^ negative') r, ?_, ?_, negative ^^ negative', r, ?_, rfl⟩
  · rwa [abs_signed hr.short.nonneg]
  · -- The sign of the product follows from those of the factors.
    have hprod : 0 ≤ r * (magnitude * magnitude') := mul_nonneg hr.short.nonneg
      (mul_nonneg (isShort_of_exact hx).nonneg (isShort_of_exact hy).nonneg)
    cases negative <;> cases negative' <;> simpa [signed] using hprod
  · rw [hproduct, hexact]

/-- A quotient is the nearest number to the exact quotient and has its sign. -/
theorem div (hx : HasValue x p) (hy : HasValue y q) (hq : q ≠ 0) (hle : |p / q| ≤ largestValue) :
    ∃ r, IsNearest |r| |p / q| ∧ 0 ≤ r * (p / q) ∧ HasValue (x / y) r := by
  obtain ⟨negative, magnitude, hx, rfl⟩ := hx
  obtain ⟨negative', magnitude', hy, rfl⟩ := hy
  obtain ⟨a, rfl⟩ := eq_number_of_exact hx
  obtain ⟨b, rfl⟩ := eq_number_of_exact hy
  rw [abs_div, abs_signed (isShort_of_exact hx).nonneg, abs_signed (isShort_of_exact hy).nonneg]
    at hle ⊢
  have hmagnitude' : magnitude' ≠ 0 := by
    rintro rfl
    exact hq (signed_zero negative')
  obtain ⟨r, hr, hexact⟩ := exact_div hx hy hmagnitude' hle
  have hquotient : number a / number b = number (a / b) := ofFloat_of_exact hexact
  refine ⟨signed (negative ^^ negative') r, ?_, ?_, negative ^^ negative', r, ?_, rfl⟩
  · rwa [abs_signed hr.short.nonneg]
  · -- The sign of the quotient follows from those of its parts.
    have hquot : 0 ≤ r * (magnitude / magnitude') := mul_nonneg hr.short.nonneg
      (div_nonneg (isShort_of_exact hx).nonneg (isShort_of_exact hy).nonneg)
    cases negative <;> cases negative' <;> simpa [signed, neg_div, div_neg] using hquot
  · rw [hquotient, hexact]

/-- A rounded result takes its sign from the exact one. -/
theorem exists_of_nonneg (hp : 0 ≤ p) (h : ∃ r, IsNearest |r| |p| ∧ 0 ≤ r * p ∧ HasValue x r) :
    ∃ r, IsNearest r p ∧ HasValue x r := by
  obtain ⟨r, hr, hsign, hvalue⟩ := h
  rw [abs_of_nonneg hp] at hr
  have hnonneg : 0 ≤ r := by
    rcases hp.eq_or_lt with rfl | hpos
    · exact (abs_eq_zero.1 (hr.eq_of_short isShort_zero)).ge
    · exact nonneg_of_mul_nonneg_left hsign hpos
  rw [abs_of_nonneg hnonneg] at hr
  exact ⟨r, hr, hvalue⟩

/-- Without signs, a product of moderate size is the nearest number to the exact one. -/
theorem mul_of_nonneg (hx : HasValue x p) (hy : HasValue y q) (hp : 0 ≤ p) (hq : 0 ≤ q)
    (hle : p * q ≤ (2 ^ 53 : ℕ)) : ∃ r, IsNearest r (p * q) ∧ HasValue (x * y) r := by
  have hproduct := mul_nonneg hp hq
  refine exists_of_nonneg hproduct (hx.mul hy ?_)
  rw [abs_of_nonneg hproduct]
  exact hle.trans (natCast_le_largestValue le_rfl)

/-- Without signs, a quotient of moderate size is the nearest number to the exact one. -/
theorem div_of_nonneg (hx : HasValue x p) (hy : HasValue y q) (hp : 0 ≤ p) (hq : 0 < q)
    (hle : p / q ≤ (2 ^ 53 : ℕ)) : ∃ r, IsNearest r (p / q) ∧ HasValue (x / y) r := by
  have hquotient := div_nonneg hp hq.le
  refine exists_of_nonneg hquotient (hx.div hy hq.ne' ?_)
  rw [abs_of_nonneg hquotient]
  exact hle.trans (natCast_le_largestValue le_rfl)

/-! ## Numbers of one value -/

/-- A number has one value only. -/
theorem unique (h : HasValue x p) (h' : HasValue x q) : p = q := (h.beq_iff h').1 (by
  rw [h.beq_iff h])

/-- A number is determined by its value, unless that is zero. -/
theorem eq_of_ne_zero (hx : HasValue x q) (hy : HasValue y q) (hq : q ≠ 0) : x = y := by
  obtain ⟨negative, magnitude, hx, hvalue⟩ := hx
  obtain ⟨negative', magnitude', hy, hvalue'⟩ := hy
  have hmagnitude : magnitude = magnitude' := by
    rw [← abs_signed (isShort_of_exact hx).nonneg, ← abs_signed (isShort_of_exact hy).nonneg,
      hvalue, hvalue']
  subst hmagnitude
  -- Zero alone has its value with both signs.
  have hpos : 0 < magnitude := by
    refine lt_of_le_of_ne (isShort_of_exact hx).nonneg ?_
    rintro rfl
    rw [signed_zero] at hvalue
    exact hq hvalue.symm
  have hsign : negative = negative' := signed_injective hpos (hvalue.trans hvalue'.symm)
  subst hsign
  exact eq_of_exact hx hy

/-! ## Whole numbers -/

/-- Natural numbers up to the first one that needs 54 bits are kept as they are. -/
theorem nearest_natCast (negative : Bool) {n : ℕ} (hn : n ≤ 2 ^ 53) :
    HasValue (Scalar.nearest negative n) (signed negative n) := by
  obtain ⟨r, hr, hexact⟩ := exact_nearest negative (Nat.cast_nonneg n) (natCast_le_largestValue hn)
  rw [hr.eq_of_short (isShort_natCast hn)] at hexact
  exact hasValue_of_exact hexact

/-- Rounding leads to an integer that is near. -/
theorem exists_round_eq (h : HasValue x q) (hq : 0 ≤ q) : ∃ (negative : Bool) (n : ℕ),
    Scalar.round x = Scalar.nearest negative n ∧ |(n : ℚ) - q| ≤ 1 / 2 ∧
      (negative = true → n = 0) := by
  obtain ⟨negative, magnitude, hexact, rfl⟩ := h
  have hmagnitude := (isShort_of_exact hexact).nonneg
  have hround : Scalar.round x = Scalar.nearest negative (roundHalfUp magnitude) := by
    have hfinite : Scalar.exact x = .finite negative magnitude := hexact
    rw [Scalar.round, hfinite]
  obtain ⟨n, hn⟩ := Int.eq_ofNat_of_zero_le
    (Int.floor_nonneg.2 (by linarith : 0 ≤ magnitude + 1 / 2))
  have hfloor : roundHalfUp magnitude = n := by
    rw [roundHalfUp, show (magnitude + 1 / 2).floor = ⌊magnitude + 1 / 2⌋ from rfl, hn]
    rfl
  have hlow : (n : ℚ) ≤ magnitude + 1 / 2 := by
    exact_mod_cast hn ▸ Int.floor_le (magnitude + 1 / 2)
  have hhigh : magnitude + 1 / 2 < n + 1 := by
    exact_mod_cast hn ▸ Int.lt_floor_add_one (magnitude + 1 / 2)
  rw [hfloor] at hround
  refine ⟨negative, n, hround, ?_⟩
  cases negative with
  -- A value that is zero, with a sign in front.
  | true =>
    have hneg : 0 ≤ -magnitude := hq
    have hzero : magnitude = 0 := by linarith
    have hn0 : n = 0 := by
      have hlt : (n : ℚ) < (1 : ℕ) := by
        push_cast
        linarith
      exact Nat.lt_one_iff.1 (by exact_mod_cast hlt)
    rw [hzero, signed_zero, hn0]
    exact ⟨by norm_num, fun _ => rfl⟩
  | false =>
    refine ⟨?_, fun h => absurd h Bool.false_ne_true⟩
    show |(n : ℚ) - magnitude| ≤ 1 / 2
    rw [abs_le]
    constructor <;> linarith

/-- Rounding gives a number whose value is a natural number next to the given one. -/
theorem exists_round (h : HasValue x q) (hq : 0 ≤ q) (hle : q ≤ 2 ^ 53) :
    ∃ n : ℕ, HasValue (Scalar.round x) n ∧ |(n : ℚ) - q| ≤ 1 / 2 := by
  obtain ⟨negative, n, hround, hnear, hsign⟩ := h.exists_round_eq hq
  have hvalue := nearest_natCast negative (le_of_near hnear (by exact_mod_cast hle) : n ≤ 2 ^ 53)
  refine ⟨n, ?_, hnear⟩
  rw [hround]
  cases negative with
  | true =>
    rw [hsign rfl] at hvalue ⊢
    rwa [Nat.cast_zero, signed_zero] at hvalue
  | false => exact hvalue

/-! ## Bounds -/

variable {lo hi : Double} {a b : ℚ}

/-- The value of a number that is kept within bounds. -/
theorem clamp (hlo : HasValue lo a) (hhi : HasValue hi b) (hx : HasValue x q) :
    HasValue (Number.clamp lo hi x) (if q < a then a else if b < q then b else q) := by
  unfold Number.clamp
  simp only [hx.lt_iff hlo, hhi.lt_iff hx]
  split
  · exact hlo
  · split
    · exact hhi
    · exact hx

/-- A number within its bounds is kept as it is. -/
theorem clamp_eq_self (hlo : HasValue lo a) (hhi : HasValue hi b) (hx : HasValue x q)
    (haq : a ≤ q) (hqb : q ≤ b) : Number.clamp lo hi x = x := by
  rw [Number.clamp, if_neg, if_neg]
  · rw [hhi.lt_iff hx]
    exact not_lt.2 hqb
  · rw [hx.lt_iff hlo]
    exact not_lt.2 haq

/-- The greater of two numbers is the first one if the second is not above it. -/
theorem max_eq_self (hx : HasValue x p) (hy : HasValue y q) (hle : q ≤ p) : Number.max x y = x := by
  rw [Number.max, hx.isNaN_eq, hy.isNaN_eq, if_neg Bool.false_ne_true, if_neg Bool.false_ne_true,
    if_neg]
  rw [hx.lt_iff hy]
  exact not_lt.2 hle

/-- The value of the greater of two numbers. -/
theorem max (hx : HasValue x p) (hy : HasValue y q) : HasValue (Number.max x y) (Max.max p q) := by
  rw [Number.max, hx.isNaN_eq, hy.isNaN_eq]
  simp only [Bool.false_eq_true, ↓reduceIte, hx.lt_iff hy]
  split
  · next hlt => rwa [max_eq_right hlt.le]
  · next hle => rwa [max_eq_left (not_lt.1 hle)]

end HasValue

/-! ## Literals -/

/-- The literals that occur are stored as they are. -/
theorem exact_literals : exact (Scalar.largest : Double) = .finite false largestValue ∧
    exact (0.0 : Double) = .finite false 0 ∧ exact (1.0 : Double) = .finite false 1 ∧
    exact (100.0 : Double) = .finite false 100 ∧ exact (255.0 : Double) = .finite false 255 ∧
    exact (360.0 : Double) = .finite false 360 ∧ exact (1000.0 : Double) = .finite false 1000 := by
  decide +kernel

/-- The value of the largest number. -/
theorem hasValue_largest : HasValue Scalar.largest largestValue :=
  hasValue_of_exact exact_literals.1

/-- The value of the number that zero is written with. -/
theorem hasValue_zero : HasValue 0.0 0 := hasValue_of_exact exact_literals.2.1

/-- The value of the number that one is written with. -/
theorem hasValue_one : HasValue 1.0 1 := hasValue_of_exact exact_literals.2.2.1

/-- The value of the number that stands for 100%. -/
theorem hasValue_hundred : HasValue 100.0 100 := hasValue_of_exact exact_literals.2.2.2.1

/-- The value of the number that stands for the greatest byte. -/
theorem hasValue_byteMax : HasValue 255.0 255 := hasValue_of_exact exact_literals.2.2.2.2.1

/-- The value of the number that stands for a full turn. -/
theorem hasValue_fullTurn : HasValue 360.0 360 := hasValue_of_exact exact_literals.2.2.2.2.2.1

/-- The value of the number that stands for thousandths. -/
theorem hasValue_thousand : HasValue 1000.0 1000 := hasValue_of_exact exact_literals.2.2.2.2.2.2

/-! ## Finite numbers -/

/-- What has a value is kept when it is made finite. -/
theorem HasValue.toFinite_eq {x : Double} {q : ℚ} (h : HasValue x q) : Scalar.toFinite x = x := by
  obtain ⟨hlow, hhigh⟩ := abs_le.1 h.abs_le_largestValue
  rw [Scalar.toFinite, h.isNaN_eq, if_neg Bool.false_ne_true]
  exact clamp_eq_self hasValue_largest.neg hasValue_largest h hlow hhigh

/-- An infinity is on its side of all numbers with a value. -/
theorem compare_infinite {a b : Float} {sign : Float.Model.UnpackedFloat.Sign} {negative : Bool}
    {q : ℚ} (h : a.toModel.unpack = .infinity sign) (hb : exact (number b) = .finite negative q) :
    a.toModel.unpack.compare b.toModel.unpack = some (if isNegativeSign sign then .lt else .gt) ∧
      b.toModel.unpack.compare a.toModel.unpack =
        some (if isNegativeSign sign then .gt else .lt) := by
  rw [h]
  rcases unpack_of_exact hb with ⟨-, hunpack⟩ | ⟨m, e, hm, -, -, -, hunpack⟩
  · rw [hunpack]
    cases sign <;> exact ⟨rfl, rfl⟩
  · rw [hunpack]
    cases sign <;> cases negative <;> exact ⟨rfl, rfl⟩

/-- An infinity is below or above all numbers that have a value, according to its sign. -/
theorem lt_infinite_iff {a : Float} {sign : Float.Model.UnpackedFloat.Sign} {y : Double} {q : ℚ}
    (h : a.toModel.unpack = .infinity sign) (hy : HasValue y q) :
    (number a < y ↔ isNegativeSign sign = true) ∧ (y < number a ↔ isNegativeSign sign = false) := by
  obtain ⟨negative, magnitude, hy, rfl⟩ := hy
  obtain ⟨b, rfl⟩ := eq_number_of_exact hy
  have hless : ∀ c d : Float,
      number c < number d ↔ (c.toModel.unpack.compare d.toModel.unpack == some .lt) = true := by
    intro c d
    show decide (c.toModel < d.toModel) = true ↔ _
    rw [decide_eq_true_iff]
    rfl
  rw [hless, hless, (compare_infinite h hy).1, (compare_infinite h hy).2]
  cases isNegativeSign sign <;> decide

/-- A number between two numbers with values has a value between them. -/
theorem exists_hasValue_of_isBetween {lo hi x : Double} {a b : ℚ} (hlo : HasValue lo a)
    (hhi : HasValue hi b) (h : Number.isBetween lo hi x = true) :
    ∃ q, HasValue x q ∧ a ≤ q ∧ q ≤ b := by
  obtain ⟨hlow, hhigh⟩ : lo ≤ x ∧ x ≤ hi := by
    rw [Number.isBetween, Bool.and_eq_true, decide_eq_true_iff, decide_eq_true_iff] at h
    exact h
  have hvalue : ∀ {q}, HasValue x q → ∃ q, HasValue x q ∧ a ≤ q ∧ q ≤ b := fun hx =>
    ⟨_, hx, (HasValue.le_iff hlo hx).1 hlow, (HasValue.le_iff hx hhi).1 hhigh⟩
  have hle : ∀ c d : Double, c ≤ d ↔
      (c.toFloat.toModel.unpack.compare d.toFloat.toModel.unpack).any (·.isLE) = true := by
    intro c d
    show decide (c.toFloat.toModel ≤ d.toFloat.toModel) = true ↔ _
    rw [decide_eq_true_iff]
    rfl
  -- The undefined number is comparable to nothing.
  have hundefined : x.toFloat.toModel.unpack ≠ .notANumber := by
    intro hunpack
    rw [hle, hunpack] at hlow
    cases hcase : lo.toFloat.toModel.unpack <;> rw [hcase] at hlow <;> cases hlow
  cases x with
  | nan negative =>
    have hnan : (match (0.0 / 0.0 : Float).toModel.unpack with
        | .notANumber => true
        | _ => false) = true := by decide +kernel
    split at hnan
    · next hunpack => exact absurd hunpack hundefined
    · cases hnan
  | number c =>
    cases hunpack : c.toModel.unpack with
    | notANumber => exact absurd hunpack hundefined
    | infinity sign =>
      -- An infinity is on the wrong side of one of the bounds.
      obtain ⟨negative, magnitude, hlo, rfl⟩ := hlo
      obtain ⟨negative', magnitude', hhi, rfl⟩ := hhi
      obtain ⟨l, rfl⟩ := eq_number_of_exact hlo
      obtain ⟨u, rfl⟩ := eq_number_of_exact hhi
      rw [hle] at hlow hhigh
      dsimp only [toFloat] at hlow hhigh
      rw [(compare_infinite hunpack hlo).2] at hlow
      rw [(compare_infinite hunpack hhi).1] at hhigh
      cases sign with
      | negative => exact absurd hlow (by decide)
      | positive => exact absurd hhigh (by decide)
    | zero sign => exact hvalue (hasValue_of_exact (exact_of_zero hunpack))
    | finite sign m e hm => exact hvalue (hasValue_of_exact (exact_of_finite hunpack))

/-- Finite numbers have a value. -/
theorem exists_hasValue_of_isFinite {x : Double} (h : Scalar.isFinite x = true) :
    ∃ q, HasValue x q := by
  have hexact : (exact x).isFinite = true := h
  cases hx : exact x with
  | finite negative magnitude => exact ⟨_, hasValue_of_exact hx⟩
  | nan | infinite =>
    rw [hx] at hexact
    cases hexact

/-- Every number has a value once it is made finite. -/
theorem hasValue_toFinite (x : Double) : ∃ q, HasValue (Scalar.toFinite x) q := by
  have hundefined : ∀ {x : Double}, Number.isNaN x = true → Scalar.toFinite x = 0.0 := fun h => by
    rw [Scalar.toFinite, h]
    rfl
  cases x with
  | nan negative =>
    refine ⟨0, ?_⟩
    rw [hundefined (by cases negative <;> decide +kernel)]
    exact hasValue_zero
  | number a =>
    cases hunpack : a.toModel.unpack with
    | notANumber =>
      refine ⟨0, ?_⟩
      rw [hundefined]
      · exact hasValue_zero
      · show (!(a.toModel.unpack.beq a.toModel.unpack)) = true
        rw [hunpack]
        rfl
    -- An infinity becomes the largest number on its side.
    | infinity sign =>
      obtain ⟨hlow, -⟩ := lt_infinite_iff hunpack hasValue_largest.neg
      obtain ⟨-, hhigh⟩ := lt_infinite_iff hunpack hasValue_largest
      have hnumber : Number.isNaN (number a) = false := by
        show (!(a.toModel.unpack.beq a.toModel.unpack)) = false
        rw [hunpack]
        cases sign <;> rfl
      rw [Scalar.toFinite, hnumber, if_neg Bool.false_ne_true, Number.clamp]
      cases sign with
      | negative =>
        rw [if_pos (hlow.2 rfl)]
        exact ⟨_, hasValue_largest.neg⟩
      | positive =>
        rw [if_neg (by rw [hlow]; decide), if_pos (hhigh.2 rfl)]
        exact ⟨_, hasValue_largest⟩
    | zero sign =>
      -- Zero is kept with its sign.
      have h := hasValue_of_exact (exact_of_zero hunpack)
      exact ⟨_, by rw [h.toFinite_eq]; exact h⟩
    | finite sign m e hm =>
      have h := hasValue_of_exact (exact_of_finite hunpack)
      exact ⟨_, by rw [h.toFinite_eq]; exact h⟩

end CssColor.Double
