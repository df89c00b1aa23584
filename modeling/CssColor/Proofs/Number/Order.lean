import CssColor.Proofs.Number.Extended
import Mathlib.Data.List.Perm.Lattice
import Mathlib.Data.Prod.Lex

/-!
# Numbers in any order

The sum and the product of exact numbers do not depend on the order of the numbers, also where
infinities and what is not a number are among them (`Extended.sum_eq_of_perm`,
`Extended.product_eq_of_perm`). The total order of numbers is a linear order, so what is sorted by
it does not depend on the order before sorting (`mergeSort_eq_of_perm`).
-/

namespace CssColor

/-! ## Sorting -/

section Sorting

variable {α β κ : Type} [LinearOrder κ] {le : α → α → Bool} {key : α → κ} {as bs : List α}

/-- What is written of the members of a sorted list does not depend on the order before sorting, if
members that the order does not tell apart are written in the same way. -/
theorem map_mergeSort_eq_of_perm (hle : ∀ a b, le a b = true ↔ key a ≤ key b) {write : α → β}
    (hwrite : ∀ a ∈ as, ∀ b ∈ as, key a = key b → write a = write b) (h : as.Perm bs) :
    (as.mergeSort le).map write = (bs.mergeSort le).map write := by
  have htrans : ∀ a b c, le a b = true → le b c = true → le a c = true := by
    intro a b c hab hbc
    exact (hle a c).2 (((hle a b).1 hab).trans ((hle b c).1 hbc))
  have htotal : ∀ a b, (le a b || le b a) = true := by
    intro a b
    rw [Bool.or_eq_true, hle, hle]
    exact le_total (key a) (key b)
  -- With what is written beside the keys, the sorted lists are in order and cannot differ.
  let entry (a : α) : κ × β := (key a, write a)
  -- Both lists are sorted by their keys.
  have hsorted : ∀ cs : List α, ((cs.mergeSort le).map entry).Pairwise fun x y => x.1 ≤ y.1 := by
    intro cs
    refine List.Pairwise.map entry ?_ (List.pairwise_mergeSort htrans htotal cs)
    exact fun a b hab => (hle a b).1 hab
  -- Equal keys are written alike, so that entries with equal keys are the same entry.
  have hentries : (as.mergeSort le).map entry = (bs.mergeSort le).map entry := by
    have hperm : (as.mergeSort le).Perm (bs.mergeSort le) :=
      (List.mergeSort_perm as le).trans (h.trans (List.mergeSort_perm bs le).symm)
    refine List.Perm.eq_of_pairwise (fun x y hx hy hxy hyx => ?_) (hsorted as) (hsorted bs)
      (hperm.map entry)
    obtain ⟨a, ha, rfl⟩ := List.mem_map.1 hx
    obtain ⟨b, hb, rfl⟩ := List.mem_map.1 hy
    have ha' : a ∈ as := List.mem_mergeSort.1 ha
    have hb' : b ∈ as := h.mem_iff.2 (List.mem_mergeSort.1 hb)
    have hkey : key a = key b := le_antisymm hxy hyx
    exact Prod.ext hkey (hwrite a ha' b hb' hkey)
  have hwritten := congrArg (List.map Prod.snd) hentries
  rwa [List.map_map, List.map_map] at hwritten

/-- What is sorted by a linear order does not depend on the order before sorting. -/
theorem mergeSort_eq_of_perm (hle : ∀ a b, le a b = true ↔ key a ≤ key b)
    (hkey : Function.Injective key) (h : as.Perm bs) : as.mergeSort le = bs.mergeSort le := by
  have hmap : (as.mergeSort le).map id = (bs.mergeSort le).map id :=
    map_mergeSort_eq_of_perm hle (fun a _ b _ hab => hkey hab) h
  rwa [List.map_id, List.map_id] at hmap

end Sorting

namespace Exact

/-- The place of a value in the total order: its kind, then its size. -/
def place : Exact → ℕ ×ₗ ℚ
  | nan true => toLex (0, 0)
  | infinite true => toLex (1, 0)
  | finite true magnitude => toLex (2, -magnitude)
  | finite false magnitude => toLex (3, magnitude)
  | infinite false => toLex (4, 0)
  | nan false => toLex (5, 0)

/-- The total order is that of the places. -/
theorem le_iff_place (x y : Exact) : x.le y = true ↔ x.place ≤ y.place := by
  rcases x with (_ | _) | (_ | _) | ⟨_ | _, a⟩ <;> rcases y with (_ | _) | (_ | _) | ⟨_ | _, b⟩ <;>
    simp [Exact.le, place, Prod.Lex.toLex_le_toLex]

/-- Exact values with the same place are the same. -/
theorem place_injective : Function.Injective place := by
  intro x y h
  rcases x with (_ | _) | (_ | _) | ⟨_ | _, a⟩ <;> rcases y with (_ | _) | (_ | _) | ⟨_ | _, b⟩ <;>
    simp_all [place]

end Exact

namespace Extended

/-! ## The total order -/

/-- Numbers with the same exact value are the same. -/
theorem exact_injective : Function.Injective (Scalar.exact : Extended → Exact) := by
  intro x y h
  cases x with
  | nan =>
    cases y with
    | nan => rfl
    | infinite t => cases h
    | rational b => cases h
  | infinite s =>
    cases y with
    | nan => cases h
    | infinite t =>
      cases h
      rfl
    | rational b => cases h
  | rational a =>
    cases y with
    | nan => cases h
    | infinite t => cases h
    | rational b =>
      obtain ⟨hsign, hmagnitude⟩ := Exact.finite.inj h
      rw [decide_eq_decide] at hsign
      -- Two rationals with one magnitude and one sign are equal.
      rcases abs_eq_abs.1 hmagnitude with rfl | rfl
      · rfl
      · have hzero : b = 0 := by
          rcases lt_trichotomy b 0 with hb | hb | hb
          · linarith [hsign.2 hb]
          · exact hb
          · linarith [hsign.1 (neg_neg_iff_pos.2 hb)]
        rw [hzero, neg_zero]

/-- The place of a number in the total order. -/
def place (x : Extended) : ℕ ×ₗ ℚ := (Scalar.exact x).place

/-- The order by which numbers are sorted is that of their places. -/
theorem totalLE_iff_place (x y : Extended) : Scalar.totalLE x y = true ↔ x.place ≤ y.place :=
  Exact.le_iff_place _ _

/-- Numbers with the same place are the same. -/
theorem place_injective : Function.Injective place :=
  Exact.place_injective.comp exact_injective

/-! ## Sums and products -/

/-- A sum with a value that is not a number is not a number. -/
theorem nan_add (x : Extended) : nan + x = nan := rfl

/-- A sum with a value that is not a number is not a number, on either side. -/
theorem add_nan (x : Extended) : x + nan = nan := by cases x <;> rfl

/-- Zero in front of a sum changes nothing. -/
protected theorem zero_add (x : Extended) : rational 0 + x = x := by
  cases x with
  | nan => rfl
  | infinite s => rfl
  | rational a => exact congrArg rational (by ring)

/-- Infinities with different signs do not add up. -/
theorem infinite_add_infinite (s t : Bool) :
    infinite s + infinite t = if s = t then infinite s else nan := rfl

/-- An infinity stays what it is when a rational is added. -/
theorem infinite_add_rational (s : Bool) (a : ℚ) : infinite s + rational a = infinite s := rfl

/-- An infinity stays what it is when it is added to a rational. -/
theorem rational_add_infinite (a : ℚ) (s : Bool) : rational a + infinite s = infinite s := rfl

/-- Two numbers are added in either order. -/
protected theorem add_right_comm (x y z : Extended) : x + y + z = x + z + y := by
  rcases x with _ | s | a <;> rcases y with _ | t | b <;> rcases z with _ | u | c <;>
    simp only [nan_add, add_nan, infinite_add_infinite, infinite_add_rational,
      rational_add_infinite, rational_add]
  case infinite.infinite.infinite => cases s <;> cases t <;> cases u <;> rfl
  case infinite.infinite.rational => split <;> rfl
  case infinite.rational.infinite => split <;> rfl
  case rational.infinite.infinite => cases t <;> cases u <;> rfl
  case rational.rational.rational => rw [show a + b + c = a + c + b by ring]

/-- A product with a value that is not a number is not a number. -/
theorem nan_mul (x : Extended) : nan * x = nan := rfl

/-- A product with a value that is not a number is not a number, on either side. -/
theorem mul_nan (x : Extended) : x * nan = nan := by cases x <;> rfl

/-- The sign of a product of infinities. -/
theorem infinite_mul_infinite (s t : Bool) : infinite s * infinite t = infinite (xor s t) := rfl

/-- An infinity times zero is not a number. -/
theorem infinite_mul_rational (s : Bool) (a : ℚ) :
    infinite s * rational a = if a = 0 then nan else infinite (xor s (a < 0)) := rfl

/-- Zero times an infinity is not a number. -/
theorem rational_mul_infinite (a : ℚ) (s : Bool) :
    rational a * infinite s = if a = 0 then nan else infinite (xor (a < 0) s) := rfl

/-- A product is negative if one of its factors is, but not both. -/
theorem decide_mul_neg {a b : ℚ} (ha : a ≠ 0) (hb : b ≠ 0) :
    decide (a * b < 0) = xor (decide (a < 0)) (decide (b < 0)) := by
  rcases lt_or_gt_of_ne ha with ha | ha <;> rcases lt_or_gt_of_ne hb with hb | hb
  · rw [decide_eq_false (mul_pos_of_neg_of_neg ha hb).not_gt, decide_eq_true ha, decide_eq_true hb]
    rfl
  · rw [decide_eq_true (mul_neg_of_neg_of_pos ha hb), decide_eq_true ha, decide_eq_false hb.not_gt]
    rfl
  · rw [decide_eq_true (mul_neg_of_pos_of_neg ha hb), decide_eq_false ha.not_gt, decide_eq_true hb]
    rfl
  · rw [decide_eq_false (mul_pos ha hb).not_gt, decide_eq_false ha.not_gt,
      decide_eq_false hb.not_gt]
    rfl

/-- Rationals around an infinity may be multiplied with each other first. -/
theorem rational_mul_infinite_mul_rational (a : ℚ) (s : Bool) (b : ℚ) :
    rational a * infinite s * rational b = rational a * rational b * infinite s := by
  rw [rational_mul]
  rcases eq_or_ne a 0 with rfl | ha
  · rw [zero_mul]
    rfl
  rcases eq_or_ne b 0 with rfl | hb
  · rw [mul_zero, rational_mul_infinite, if_neg ha]
    rfl
  · rw [rational_mul_infinite, rational_mul_infinite, if_neg ha, if_neg (mul_ne_zero ha hb),
      infinite_mul_rational, if_neg hb, decide_mul_neg ha hb, Bool.xor_assoc, Bool.xor_assoc,
      Bool.xor_comm s]

/-- A rational and an infinity may change places. -/
theorem infinite_mul_rational_comm (s : Bool) (a : ℚ) :
    infinite s * rational a = rational a * infinite s := by
  rw [infinite_mul_rational, rational_mul_infinite, Bool.xor_comm]

/-- An infinity and a rational are multiplied to an infinity in either order. -/
theorem infinite_mul_infinite_mul_rational (s t : Bool) (a : ℚ) :
    infinite s * infinite t * rational a = infinite s * rational a * infinite t := by
  rw [infinite_mul_infinite, infinite_mul_rational, infinite_mul_rational]
  split
  · rfl
  · rw [infinite_mul_infinite, Bool.xor_right_comm]

/-- Two numbers are multiplied in either order. -/
protected theorem mul_right_comm (x y z : Extended) : x * y * z = x * z * y := by
  -- What is not a number stays so, and the signs of infinities are multiplied in any order.
  rcases x with _ | s | a <;> rcases y with _ | t | b <;> rcases z with _ | u | c <;>
    try simp only [nan_mul, mul_nan]
  case infinite.infinite.infinite => cases s <;> cases t <;> cases u <;> rfl
  case infinite.infinite.rational => exact infinite_mul_infinite_mul_rational s t c
  case infinite.rational.infinite => exact (infinite_mul_infinite_mul_rational s u b).symm
  case infinite.rational.rational =>
    rw [infinite_mul_rational_comm, infinite_mul_rational_comm, rational_mul_infinite_mul_rational,
      rational_mul_infinite_mul_rational, rational_mul, rational_mul, mul_comm b c]
  case rational.infinite.infinite =>
    rw [rational_mul_infinite, rational_mul_infinite]
    split
    · rfl
    · rw [infinite_mul_infinite, infinite_mul_infinite, Bool.xor_right_comm]
  case rational.infinite.rational => exact rational_mul_infinite_mul_rational a t c
  case rational.rational.infinite => exact (rational_mul_infinite_mul_rational a u b).symm
  case rational.rational.rational =>
    rw [rational_mul, rational_mul, rational_mul, rational_mul, show a * b * c = a * c * b by ring]

variable {xs ys : List Extended}

/-- The sum does not depend on the order. -/
theorem sum_eq_of_perm (h : xs.Perm ys) : Number.sum xs = Number.sum ys := by
  have hcomm : RightCommutative (fun x y : Extended => x + y) := ⟨Extended.add_right_comm⟩
  exact h.foldl_eq _

/-- The product does not depend on the order. -/
theorem product_eq_of_perm (h : xs.Perm ys) : Number.product xs = Number.product ys := by
  have hcomm : RightCommutative (fun x y : Extended => x * y) := ⟨Extended.mul_right_comm⟩
  exact h.foldl_eq _

end Extended

end CssColor
