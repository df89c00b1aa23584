import CssColor.Number.Basic
import Mathlib.Algebra.Order.ToIntervalMod
import Mathlib.Data.Rat.Cast.Order
import Mathlib.Data.Rat.Floor
import Mathlib.Tactic.Linarith
import Mathlib.Tactic.NormNum
import Mathlib.Tactic.Ring

/-!
# Exact numbers

The rationals with the values of floating point that lie outside of them: two infinities, and what
is not a number. Arithmetic on rationals is exact, and with the others it follows floating point,
but for the signs of zeros and of what is not a number, which are not told apart. A division by zero
takes the sign of the dividend.
-/

namespace CssColor

/-- A rational, an infinity, or what is not a number. -/
inductive Extended where
  | nan
  | infinite (negative : Bool)
  | rational (value : ℚ)
deriving DecidableEq

namespace Extended

/-! ## Operations -/

/-- The sum. Infinities of opposite signs have none. -/
def add : Extended → Extended → Extended
  | nan, _ => nan
  | _, nan => nan
  | infinite s, infinite t => if s = t then infinite s else nan
  | infinite s, rational _ => infinite s
  | rational _, infinite s => infinite s
  | rational a, rational b => rational (a + b)

/-- The opposite. -/
def neg : Extended → Extended
  | nan => nan
  | infinite s => infinite (!s)
  | rational a => rational (-a)

/-- The product. That of an infinity and zero is not a number. -/
def mul : Extended → Extended → Extended
  | nan, _ => nan
  | _, nan => nan
  | infinite s, infinite t => infinite (xor s t)
  | infinite s, rational b => if b = 0 then nan else infinite (xor s (b < 0))
  | rational a, infinite t => if a = 0 then nan else infinite (xor (a < 0) t)
  | rational a, rational b => rational (a * b)

/-- The quotient. Neither two zeros nor two infinities have one. -/
def div : Extended → Extended → Extended
  | nan, _ => nan
  | _, nan => nan
  | infinite _, infinite _ => nan
  | infinite s, rational b => infinite (xor s (b < 0))
  | rational _, infinite _ => rational 0
  | rational a, rational b =>
    if b = 0 then (if a = 0 then nan else infinite (a < 0)) else rational (a / b)

/-- Whether the first number is less than the second. -/
def isLess : Extended → Extended → Bool
  | nan, _ => false
  | _, nan => false
  | infinite s, infinite t => s && !t
  | infinite s, rational _ => s
  | rational _, infinite t => !t
  | rational a, rational b => a < b

/-- Whether two numbers are equal. What is not a number is equal to none. -/
def isEqual : Extended → Extended → Bool
  | nan, _ => false
  | x, y => x = y

/-- The greatest finite number of 64 bits. -/
def largestValue : ℚ := ((2 ^ 53 - 1) * 2 ^ 971 : ℕ)

end Extended

instance Extended.instNumber : Number Extended where
  add := Extended.add
  sub x y := Extended.add x (Extended.neg y)
  mul := Extended.mul
  div := Extended.div
  neg := Extended.neg
  lt x y := Extended.isLess x y = true
  le x y := (Extended.isLess x y || Extended.isEqual x y) = true
  beq := Extended.isEqual
  ofScientific digits isFraction exponent :=
    .rational (OfScientific.ofScientific digits isFraction exponent)
  decLT x y := inferInstanceAs (Decidable (Extended.isLess x y = true))
  decLE x y := inferInstanceAs (Decidable ((Extended.isLess x y || Extended.isEqual x y) = true))

instance Extended.instScalar : Scalar Extended where
  exact
    | .nan => .nan false
    | .infinite s => .infinite s
    | .rational a => .finite (a < 0) |a|
  nearest negative magnitude := .rational (if negative then -magnitude else magnitude)
  infinity := .infinite false
  nan := .nan
  largest := .rational Extended.largestValue

namespace Extended

variable {a b : ℚ}

/-! ## Rationals -/

/-- Rationals are added as rationals. -/
theorem rational_add : rational a + rational b = rational (a + b) := rfl

/-- The opposite of a rational is a rational. -/
theorem rational_neg : -rational a = rational (-a) := rfl

/-- Rationals are subtracted as rationals. -/
theorem rational_sub : rational a - rational b = rational (a - b) := by
  rw [sub_eq_add_neg]
  rfl

/-- Rationals are multiplied as rationals. -/
theorem rational_mul : rational a * rational b = rational (a * b) := rfl

/-- Rationals are divided as rationals, except by zero. -/
theorem rational_div (hb : b ≠ 0) : rational a / rational b = rational (a / b) := if_neg hb

/-- Rationals are compared as rationals. -/
theorem rational_lt_iff : rational a < rational b ↔ a < b := decide_eq_true_iff

/-- Rationals are equal as rationals: there is one zero. -/
theorem rational_beq_iff : (rational a == rational b) = true ↔ a = b := by
  have hbeq : (rational a == rational b) = decide (rational a = rational b) := rfl
  rw [hbeq, decide_eq_true_iff, rational.injEq]

/-- Rationals are compared as rationals, equality included. -/
theorem rational_le_iff : rational a ≤ rational b ↔ a ≤ b := by
  have hle : rational a ≤ rational b ↔
      (decide (a < b) || decide (rational a = rational b)) = true := Iff.rfl
  rw [hle, Bool.or_eq_true, decide_eq_true_iff, decide_eq_true_iff, rational.injEq,
    le_iff_lt_or_eq]

/-- Rationals are finite. -/
theorem isFinite_rational : Scalar.isFinite (rational a) = true := rfl

/-- A finite number is a rational. -/
theorem isFinite_iff {x : Extended} : Scalar.isFinite x = true ↔ ∃ a, x = rational a := by
  constructor
  · intro h
    cases x with
    | rational a => exact ⟨a, rfl⟩
    | nan => cases h
    | infinite s => cases h
  · rintro ⟨a, rfl⟩
    rfl

/-! ## Literals -/

/-- A literal is the rational that it is written as. -/
theorem literal_eq (digits : ℕ) (isFraction : Bool) (exponent : ℕ) :
    (OfScientific.ofScientific digits isFraction exponent : Extended) =
      rational (OfScientific.ofScientific digits isFraction exponent) := rfl

/-- The value that zero is written with. -/
theorem zero_eq : (0.0 : Extended) = rational 0 := congrArg rational (by norm_num)

/-- The value that one is written with. -/
theorem one_eq : (1.0 : Extended) = rational 1 := congrArg rational (by norm_num)

/-- The value that 50% is written with. -/
theorem fifty_eq : (50.0 : Extended) = rational 50 := congrArg rational (by norm_num)

/-- The value that 100% is written with. -/
theorem hundred_eq : (100.0 : Extended) = rational 100 := congrArg rational (by norm_num)

/-- The value that the greatest byte is written with. -/
theorem byteMax_eq : (255.0 : Extended) = rational 255 := congrArg rational (by norm_num)

/-- The value that half of a turn is written with. -/
theorem halfTurn_eq : (180.0 : Extended) = rational 180 := congrArg rational (by norm_num)

/-- The value that a full turn is written with. -/
theorem fullTurn_eq : (360.0 : Extended) = rational 360 := congrArg rational (by norm_num)

/-! ## Bounds -/

/-- A rational between two bounds. -/
def Between (lo hi : ℚ) (x : Extended) : Prop := ∃ a, x = rational a ∧ lo ≤ a ∧ a ≤ hi

/-- What lies between rationals is finite. -/
theorem Between.isFinite {lo hi : ℚ} {x : Extended} (h : Between lo hi x) :
    Scalar.isFinite x = true := by
  obtain ⟨a, rfl, -⟩ := h
  exact isFinite_rational

/-- What lies between two rationals is found out by comparing. -/
theorem between_iff {lo hi : ℚ} {x : Extended} :
    Between lo hi x ↔ rational lo ≤ x ∧ x ≤ rational hi := by
  constructor
  · rintro ⟨a, rfl, hlo, hhi⟩
    exact ⟨rational_le_iff.2 hlo, rational_le_iff.2 hhi⟩
  · rintro ⟨hlo, hhi⟩
    cases x with
    | rational a => exact ⟨a, rfl, rational_le_iff.1 hlo, rational_le_iff.1 hhi⟩
    | nan => cases hlo
    | infinite s =>
      cases s with
      | false => cases hhi
      | true => cases hlo

/-- Clamping a rational gives one between the bounds. -/
theorem between_clamp {lo hi : ℚ} (h : lo ≤ hi) (a : ℚ) :
    Between lo hi (Number.clamp (rational lo) (rational hi) (rational a)) := by
  unfold Number.clamp
  split
  · exact ⟨lo, rfl, le_rfl, h⟩
  · next hlo =>
    rw [rational_lt_iff, not_lt] at hlo
    split
    · exact ⟨hi, rfl, h, le_rfl⟩
    · next hhi =>
      rw [rational_lt_iff, not_lt] at hhi
      exact ⟨a, rfl, hlo, hhi⟩

/-- Clamping leaves a number between the bounds as it is. -/
theorem clamp_eq_self {lo hi a : ℚ} (hlo : lo ≤ a) (hhi : a ≤ hi) :
    Number.clamp (rational lo) (rational hi) (rational a) = rational a := by
  unfold Number.clamp
  rw [if_neg (by rwa [rational_lt_iff, not_lt]), if_neg (by rwa [rational_lt_iff, not_lt])]

/-- A rational is not undefined. -/
theorem isNaN_rational : Number.isNaN (rational a) = false := by
  unfold Number.isNaN
  rw [rational_beq_iff.2 rfl]
  rfl

/-- The greater of two rationals. -/
theorem max_rational : Number.max (rational a) (rational b) = rational (max a b) := by
  unfold Number.max
  rw [isNaN_rational, isNaN_rational]
  simp only [Bool.false_eq_true, if_false, rational_lt_iff]
  split
  · next hlt => rw [max_eq_right hlt.le]
  · next hge => rw [max_eq_left (not_lt.1 hge)]

/-- The smaller of two rationals. -/
theorem min_rational : Number.min (rational a) (rational b) = rational (min a b) := by
  unfold Number.min
  rw [isNaN_rational, isNaN_rational]
  simp only [Bool.false_eq_true, if_false, rational_lt_iff]
  split
  · next hlt => rw [min_eq_right hlt.le]
  · next hge => rw [min_eq_left (not_lt.1 hge)]

/-- Up to a full turn no value is above the largest number. -/
theorem le_largestValue (h : a ≤ 360) : a ≤ largestValue := by
  have hpow (n : ℕ) : (360 : ℚ) ≤ ((2 ^ 53 - 1) * 2 ^ n : ℕ) := by
    have hone : 1 ≤ 2 ^ n := Nat.one_le_two_pow
    have hnat : 360 ≤ (2 ^ 53 - 1) * 2 ^ n := by omega
    exact_mod_cast hnat
  exact h.trans (hpow 971)

/-- There is a finite number in place of every number. -/
theorem isFinite_toFinite (x : Extended) : Scalar.isFinite (Scalar.toFinite x) = true := by
  unfold Scalar.toFinite
  cases x with
  | nan => rfl
  | infinite s =>
    cases s with
    | false => rfl
    | true => rfl
  | rational a =>
    rw [isNaN_rational]
    exact (between_clamp (neg_le_self (Nat.cast_nonneg _)) a).isFinite

/-- Finite numbers that are not too large stay as they are. -/
theorem toFinite_rational (hlo : -360 ≤ a) (hhi : a ≤ 360) :
    Scalar.toFinite (rational a) = rational a := by
  unfold Scalar.toFinite
  rw [isNaN_rational]
  have hneg : -largestValue ≤ a := by
    have hle := le_largestValue (neg_le_of_neg_le hlo)
    linarith
  exact clamp_eq_self hneg (le_largestValue hhi)

/-- What lies between moderate bounds is kept when it is made finite. -/
theorem Between.toFinite {lo hi : ℚ} {x : Extended} (h : Between lo hi x) (hlo : -360 ≤ lo)
    (hhi : hi ≤ 360) : Between lo hi (Scalar.toFinite x) := by
  obtain ⟨a, rfl, ha, ha'⟩ := h
  exact ⟨a, toFinite_rational (hlo.trans ha) (ha'.trans hhi), ha, ha'⟩

/-! ## Remainders -/

/-- The remainder by a positive number is less than that number, on the side of the dividend, and
some whole divisors away from the dividend. -/
theorem remainder_rational (hb : 0 < b) : ∃ (r : ℚ) (n : ℤ), 0 ≤ r ∧ r < b ∧ |a| = r + n * b ∧
    Scalar.remainder (rational a) (rational b) = rational (if a < 0 then -r else r) := by
  have habs : |b| = b := abs_of_pos hb
  have hle := Rat.floor_le (|a| / b)
  have hlt := Rat.lt_floor_add_one (|a| / b)
  rw [le_div_iff₀ hb] at hle
  rw [div_lt_iff₀ hb, Int.cast_add, Int.cast_one] at hlt
  -- The quotient is cut off at the integer below it.
  refine ⟨|a| - b * ((|a| / b).floor : Int), (|a| / b).floor, by linarith, by linarith,
    by ring, ?_⟩
  have hremainder : Scalar.remainder (rational a) (rational b) =
      if |b| = 0 then nan
      else rational (if (decide (a < 0)) = true then -(|a| - |b| * ((|a| / |b|).floor : Int))
        else |a| - |b| * ((|a| / |b|).floor : Int)) := rfl
  rw [hremainder, habs, if_neg hb.ne']
  simp only [decide_eq_true_eq]

/-- The absolute value of a rational. -/
theorem abs_rational : Scalar.abs (rational a) = rational |a| := by
  have hnegative : Scalar.isNegative (rational a) = decide (a < 0) := rfl
  unfold Scalar.abs
  rw [hnegative]
  by_cases ha : a < 0
  · rw [decide_eq_true ha, if_pos rfl, rational_neg, abs_of_neg ha]
  · rw [decide_eq_false ha, if_neg Bool.false_ne_true, abs_of_nonneg (not_lt.1 ha)]

/-- A number that is not negative has its remainder between zero and the divisor. -/
theorem remainder_of_nonneg (ha : 0 ≤ a) (hb : 0 < b) :
    Scalar.remainder (rational a) (rational b) = rational (toIcoMod hb 0 a) := by
  obtain ⟨r, n, hr, hrb, hmultiple, hremainder⟩ := remainder_rational (a := a) hb
  rw [abs_of_nonneg ha] at hmultiple
  rw [hremainder, if_neg (not_lt.2 ha)]
  congr 1
  exact ((toIcoMod_eq_iff hb).2 ⟨⟨hr, by rwa [zero_add]⟩, n, by rwa [zsmul_eq_mul]⟩).symm

/-- The remainder between zero and a positive number. -/
theorem modulo_rational (hb : 0 < b) :
    Scalar.modulo (rational a) (rational b) = rational (toIcoMod hb 0 a) := by
  unfold Scalar.modulo
  dsimp only
  rw [abs_rational, abs_of_pos hb, zero_eq]
  rcases lt_or_ge a 0 with ha | ha
  · -- A remainder on the negative side is moved by the divisor, unless it is zero.
    obtain ⟨r, n, hr, hrb, hmultiple, hremainder⟩ := remainder_rational (a := a) hb
    have heq {x : ℚ} (k : ℤ) (hx : 0 ≤ x) (hxb : x < b) (hk : a = x + k * b) :
        rational x = rational (toIcoMod hb 0 a) := by
      rw [(toIcoMod_eq_iff hb).2 ⟨⟨hx, by rwa [zero_add]⟩, k, by rwa [zsmul_eq_mul]⟩]
    rw [abs_of_neg ha] at hmultiple
    rw [hremainder, if_pos ha, rational_add]
    split
    · next hneg =>
      rw [rational_lt_iff] at hneg
      refine heq (-n - 1) (by linarith) (by linarith) ?_
      push_cast
      linarith
    · next hneg =>
      rw [rational_lt_iff] at hneg
      refine heq (-n) (by linarith) (by linarith) ?_
      push_cast
      linarith
  · rw [remainder_of_nonneg ha hb, if_neg]
    rw [rational_lt_iff, not_lt]
    exact (toIcoMod_mem_Ico' hb a).1

/-! ## Divisions by zero -/

section Dividing

variable (atZero : Extended → Extended)

/-- The numbers with other results of divisions by zero, also of those with a remainder. -/
@[reducible] def dividing : Scalar Extended :=
  { instScalar with
    div := fun x y => if y = rational 0 then atZero x else x / y
    nan := atZero nan }

/-- Quotients by zero put aside, division is what it was. -/
theorem div_dividing (x : Extended) (hb : b ≠ 0) :
    @HDiv.hDiv Extended Extended Extended (@instHDiv Extended (dividing atZero).toDiv) x
      (rational b) = x / rational b :=
  if_neg (by rwa [rational.injEq])

/-- Remainders by zero put aside, the remainder is what it was. -/
theorem remainder_dividing (hb : b ≠ 0) :
    @Scalar.remainder Extended (dividing atZero) (rational a) (rational b) =
      Scalar.remainder (rational a) (rational b) := by
  have habs : |b| ≠ 0 := abs_ne_zero.2 hb
  exact (if_neg habs).trans (if_neg habs).symm

end Dividing

end Extended

end CssColor
