import CssColor.Conversion.Basic
import CssColor.Proofs.Number.Extended
import Mathlib.LinearAlgebra.Matrix.NonsingularInverse

/-!
# Linear conversions on exact numbers

On rationals a matrix is applied, its determinant computed and its inverse taken as for matrices in
general (`Matrix3.apply_ofMatrix`, `Matrix3.determinant_ofMatrix`, `Matrix3.inverse_ofMatrix`). So a
matrix whose determinant is not zero and its inverse undo each other, and so do the matrices that
are written down for both directions.

Linear sRGB and both kinds of XYZ differ by matrices alone. A conversion between two of them is a
change of basis (`Conversion.convert_ofVector`), so a way over the third one ends at the same place
(`Conversion.convert_convert`).
-/

namespace CssColor

open Extended
open scoped Matrix

/-! ## Matrices of rationals -/

/-- A vector of rationals. -/
def Triple.ofVector (v : Fin 3 → ℚ) : Triple Extended :=
  ⟨rational (v 0), rational (v 1), rational (v 2)⟩

namespace Matrix3

variable {A : Matrix (Fin 3) (Fin 3) ℚ} {m n : Matrix3 Extended}

/-- A matrix of rationals. -/
def ofMatrix (A : Matrix (Fin 3) (Fin 3) ℚ) : Matrix3 Extended :=
  ⟨⟨.ofVector (A 0), .ofVector (A 1), .ofVector (A 2)⟩⟩

/-- The dot product of rational vectors. -/
theorem dot_ofVector (v w : Fin 3 → ℚ) :
    dot (Triple.ofVector v) (Triple.ofVector w) = rational (v ⬝ᵥ w) := by
  have hsum : v ⬝ᵥ w = v 0 * w 0 + v 1 * w 1 + v 2 * w 2 := Fin.sum_univ_three _
  rw [hsum]
  rfl

/-- Rational matrices are applied as matrices of the library. -/
theorem apply_ofMatrix (A : Matrix (Fin 3) (Fin 3) ℚ) (v : Fin 3 → ℚ) :
    (ofMatrix A).apply (.ofVector v) = .ofVector (A *ᵥ v) := by
  unfold apply ofMatrix Triple.map
  dsimp only
  rw [dot_ofVector, dot_ofVector, dot_ofVector]
  rfl

/-- The determinant of a rational matrix. -/
theorem determinant_ofMatrix (A : Matrix (Fin 3) (Fin 3) ℚ) :
    (ofMatrix A).determinant = rational A.det := by
  rw [Matrix.det_fin_three]
  unfold determinant ofMatrix Triple.ofVector
  dsimp only
  simp only [rational_mul, rational_sub, rational_add]
  congr 1
  ring

/-- The adjugate over the determinant is the inverse. -/
theorem inverse_ofMatrix (h : A.det ≠ 0) : (ofMatrix A).inverse = ofMatrix A⁻¹ := by
  have hscale : (1.0 : Extended) / (ofMatrix A).determinant = rational A.det⁻¹ := by
    rw [determinant_ofMatrix, one_eq, rational_div h, one_div]
  have hinverse : A⁻¹ = A.det⁻¹ • A.adjugate := by
    rw [Matrix.inv_def, Ring.inverse_eq_inv']
  rw [hinverse, Matrix.adjugate_fin_three]
  unfold ofMatrix Triple.ofVector at hscale ⊢
  unfold inverse
  dsimp only at hscale ⊢
  rw [hscale]
  simp only [rational_mul, rational_sub, rational_neg]
  simp only [Matrix.smul_apply, smul_eq_mul, Matrix.of_apply, Matrix.cons_val, mk.injEq,
    Triple.mk.injEq, rational.injEq]
  refine ⟨⟨?_, ?_, ?_⟩, ⟨?_, ?_, ?_⟩, ?_, ?_, ?_⟩ <;> ring

/-- The entries of a matrix, where they are rationals. -/
def toMatrix (m : Matrix3 Extended) : Matrix (Fin 3) (Fin 3) ℚ :=
  let value : Extended → ℚ
    | .rational a => a
    | _ => 0
  let row (v : Triple Extended) : Fin 3 → ℚ := ![value v.first, value v.second, value v.third]
  ![row m.rows.first, row m.rows.second, row m.rows.third]

/-- Two matrices undo each other on all rational vectors, in both orders. -/
def AreInverse (m n : Matrix3 Extended) : Prop :=
  ∀ v : Fin 3 → ℚ, m.apply (n.apply (.ofVector v)) = .ofVector v ∧
    n.apply (m.apply (.ofVector v)) = .ofVector v

/-- Matrices whose product is one are inverse to each other. -/
theorem areInverse_ofMatrix {A B : Matrix (Fin 3) (Fin 3) ℚ} (h : A * B = 1) :
    AreInverse (ofMatrix A) (ofMatrix B) := by
  intro v
  simp only [apply_ofMatrix, Matrix.mulVec_mulVec, h, mul_eq_one_comm.1 h,
    Matrix.one_mulVec, and_self]

/-- A matrix that has rational entries only. -/
theorem apply_ofVector (hm : m = ofMatrix m.toMatrix) (v : Fin 3 → ℚ) :
    m.apply (.ofVector v) = .ofVector (m.toMatrix *ᵥ v) := by
  rw [← apply_ofMatrix, ← hm]

/-- Whether the product of two matrices of rationals is one can be computed. -/
theorem areInverse_of_mul_toMatrix (hm : m = ofMatrix m.toMatrix) (hn : n = ofMatrix n.toMatrix)
    (h : m.toMatrix * n.toMatrix = 1) : AreInverse m n := by
  rw [hm, hn]
  exact areInverse_ofMatrix h

/-- The matrices that are written down for both directions: those of sRGB, display-p3, a98-rgb and
rec2020. -/
def directions : List (Matrix3 Extended × Matrix3 Extended) :=
  [(srgbToXyz, xyzToSrgb), (p3ToXyz, xyzToP3), (a98ToXyz, xyzToA98), (rec2020ToXyz, xyzToRec2020)]

/-- The entries of both directions are rationals, and their product is one. -/
theorem mul_directions : ∀ pair ∈ directions, pair.1 = ofMatrix pair.1.toMatrix ∧
    pair.2 = ofMatrix pair.2.toMatrix ∧ pair.1.toMatrix * pair.2.toMatrix = 1 := by
  decide +kernel

/-- The adaptation from D65 to D50 has rational entries only. -/
theorem d65ToD50_eq : d65ToD50 = ofMatrix d65ToD50.toMatrix := by decide +kernel

/-- The adaptation from D65 to D50 can be undone. -/
theorem det_d65ToD50_ne_zero : (d65ToD50.toMatrix).det ≠ 0 := by
  have h : d65ToD50.determinant ≠ rational 0 := by decide +kernel
  rwa [d65ToD50_eq, determinant_ofMatrix, Ne, rational.injEq] at h

/-- The adaptation back is the inverse. -/
theorem d50ToD65_eq : d50ToD65 = ofMatrix (d65ToD50.toMatrix)⁻¹ := by
  rw [← inverse_ofMatrix det_d65ToD50_ne_zero, ← d65ToD50_eq]
  rfl

end Matrix3

/-! ## Conversions between linear spaces -/

namespace Conversion

/-- The spaces that differ from XYZ by a matrix. -/
def linearSpaces : List Space := [.srgbLinear, .xyzD65, .xyzD50]

/-- The matrix of a linear space to XYZ relative to D65. -/
noncomputable def basis : Space → Matrix (Fin 3) (Fin 3) ℚ
  | .srgbLinear => Matrix3.srgbToXyz.toMatrix
  | .xyzD50 => (Matrix3.d65ToD50.toMatrix)⁻¹
  | _ => 1

open Matrix3

variable {space source middle target : Space}

/-- The basis of each linear space can be undone. -/
theorem isUnit_det_basis (space : Space) : IsUnit (basis space).det := by
  unfold basis
  split
  · exact Matrix.isUnit_det_of_right_inverse (mul_directions _ List.mem_cons_self).2.2
  · exact Matrix.isUnit_nonsing_inv_det _ (isUnit_iff_ne_zero.2 det_d65ToD50_ne_zero)
  · rw [Matrix.det_one]
    exact isUnit_one

section AnyPowers

variable [Elementary Extended]

/-- Towards XYZ a linear space is multiplied by its basis. -/
theorem toXyz_ofVector (h : space ∈ linearSpaces) (v : Fin 3 → ℚ) :
    toXyz space (.ofVector v) = .ofVector (basis space *ᵥ v) := by
  simp only [linearSpaces, List.mem_cons, List.not_mem_nil, or_false] at h
  obtain rfl | rfl | rfl := h
  · exact apply_ofVector (mul_directions _ List.mem_cons_self).1 v
  · exact congrArg Triple.ofVector (Matrix.one_mulVec v).symm
  · unfold toXyz
    dsimp only
    rw [d50ToD65_eq]
    exact apply_ofMatrix _ v

/-- From XYZ a linear space is multiplied by the inverse of its basis. -/
theorem ofXyz_ofVector (h : space ∈ linearSpaces) (v : Fin 3 → ℚ) :
    ofXyz space (.ofVector v) = .ofVector ((basis space)⁻¹ *ᵥ v) := by
  simp only [linearSpaces, List.mem_cons, List.not_mem_nil, or_false] at h
  obtain rfl | rfl | rfl := h
  · -- For each space the inverse of the basis is the matrix that is written down.
    obtain ⟨-, hback, hproduct⟩ := mul_directions _ List.mem_cons_self
    have hinverse : (basis .srgbLinear)⁻¹ = xyzToSrgb.toMatrix := Matrix.inv_eq_right_inv hproduct
    rw [hinverse]
    exact apply_ofVector hback v
  · have hinverse : (basis .xyzD65)⁻¹ = 1 := inv_one
    rw [hinverse, Matrix.one_mulVec]
    rfl
  · have hinverse : (basis .xyzD50)⁻¹ = d65ToD50.toMatrix :=
      Matrix.nonsing_inv_nonsing_inv _ (isUnit_iff_ne_zero.2 det_d65ToD50_ne_zero)
    rw [hinverse]
    exact apply_ofVector d65ToD50_eq v

/-- No two linear spaces have a base in common that is nearer than XYZ. -/
theorem direct?_eq_none (hsource : source ∈ linearSpaces) (htarget : target ∈ linearSpaces)
    (v : Triple Extended) : direct? source target v = none := by
  simp only [linearSpaces, List.mem_cons, List.not_mem_nil, or_false] at hsource htarget
  obtain rfl | rfl | rfl := hsource <;> obtain rfl | rfl | rfl := htarget <;> rfl

/-- A conversion between linear spaces is a change of basis. -/
theorem convert_ofVector (hsource : source ∈ linearSpaces) (htarget : target ∈ linearSpaces)
    (v : Fin 3 → ℚ) : convert source target (.ofVector v) =
      .ofVector ((basis target)⁻¹ *ᵥ (basis source *ᵥ v)) := by
  unfold convert
  split_ifs with hsame
  · rw [hsame, Matrix.mulVec_mulVec, Matrix.nonsing_inv_mul _ (isUnit_det_basis target),
      Matrix.one_mulVec]
  · rw [direct?_eq_none hsource htarget, Option.getD_none, toXyz_ofVector hsource,
      ofXyz_ofVector htarget]

/-- A way over a third linear space ends at the same place. -/
theorem convert_convert (hsource : source ∈ linearSpaces) (hmiddle : middle ∈ linearSpaces)
    (htarget : target ∈ linearSpaces) (v : Fin 3 → ℚ) :
    convert middle target (convert source middle (.ofVector v)) =
      convert source target (.ofVector v) := by
  rw [convert_ofVector hsource hmiddle, convert_ofVector hmiddle htarget,
    convert_ofVector hsource htarget, Matrix.mulVec_mulVec (basis source *ᵥ v),
    Matrix.mul_nonsing_inv _ (isUnit_det_basis middle), Matrix.one_mulVec]

/-- A matrix whose determinant is not zero and its inverse undo each other. A conversion between
linear spaces does not depend on the way over a third one, and the matrices that are written down
for both directions undo each other. -/
theorem areInverse_and_convert_convert :
    (∀ A : Matrix (Fin 3) (Fin 3) ℚ, (ofMatrix A).determinant ≠ 0.0 →
      AreInverse (ofMatrix A).inverse (ofMatrix A)) ∧
    (∀ source ∈ linearSpaces, ∀ middle ∈ linearSpaces, ∀ target ∈ linearSpaces,
      ∀ v : Fin 3 → ℚ, convert middle target (convert source middle (.ofVector v)) =
        convert source target (.ofVector v)) ∧
    ∀ pair ∈ directions, AreInverse pair.1 pair.2 := by
  refine ⟨?_, ?_, ?_⟩
  · -- A matrix that can be inverted is inverted as in the library.
    intro A h
    rw [determinant_ofMatrix, zero_eq, Ne, rational.injEq] at h
    rw [inverse_ofMatrix h]
    exact areInverse_ofMatrix (Matrix.nonsing_inv_mul A (isUnit_iff_ne_zero.2 h))
  · intro source hsource middle hmiddle target htarget v
    exact convert_convert hsource hmiddle htarget v
  · intro pair hpair
    obtain ⟨hforth, hback, hproduct⟩ := mul_directions pair hpair
    exact areInverse_of_mul_toMatrix hforth hback hproduct

end AnyPowers

/-- A matrix with the determinant one, and the way from linear sRGB over XYZ relative to D50. No
power, root or angle is needed. -/
theorem areInverse_and_convert_convert_bradford :
    let _ : Elementary Extended := ⟨fun _ _ => .nan, fun _ => .nan, fun _ _ => .nan,
      fun _ _ => .nan, fun _ => .nan, fun _ => .nan⟩
    (ofMatrix !![1, 2, 3; 0, 1, 4; 5, 6, 0]).determinant ≠ 0.0 ∧
      AreInverse (ofMatrix !![1, 2, 3; 0, 1, 4; 5, 6, 0]).inverse
        (ofMatrix !![1, 2, 3; 0, 1, 4; 5, 6, 0]) ∧
      convert .xyzD50 .xyzD65 (convert .srgbLinear .xyzD50 (.ofVector ![1, 0, -2])) =
        convert .srgbLinear .xyzD65 (.ofVector ![1, 0, -2]) ∧
      AreInverse p3ToXyz xyzToP3 := by
  intro _
  have hdeterminant : (ofMatrix !![1, 2, 3; 0, 1, 4; 5, 6, 0]).determinant ≠ 0.0 := by
    decide +kernel
  -- Any powers will do, since the linear spaces use none.
  obtain ⟨hinverse, hpaths, hpairs⟩ := areInverse_and_convert_convert
  exact ⟨hdeterminant, hinverse _ hdeterminant,
    hpaths .srgbLinear (by decide) .xyzD50 (by decide) .xyzD65 (by decide) _,
    hpairs (p3ToXyz, xyzToP3) (List.mem_cons_of_mem _ List.mem_cons_self)⟩

end Conversion

end CssColor
