import CssColor.Color.Space

/-!
# Matrices

Square matrices of three rows, applied to the components of a colour. `inverse` divides the adjugate
by the determinant.
-/

namespace CssColor

/-- A matrix by its rows. -/
structure Matrix3 (K : Type) where
  rows : Triple (Triple K)
deriving DecidableEq

namespace Matrix3

variable {K : Type}

variable [Number K]

/-- The product of a row and a column vector. -/
def dot (row v : Triple K) : K :=
  row.first * v.first + row.second * v.second + row.third * v.third

/-- The product of a matrix and a column vector. -/
def apply (m : Matrix3 K) (v : Triple K) : Triple K := m.rows.map (dot · v)

/-- The determinant. -/
def determinant : Matrix3 K → K
  | ⟨⟨⟨a, b, c⟩, ⟨d, e, f⟩, ⟨g, h, i⟩⟩⟩ =>
    a * (e * i - f * h) - b * (d * i - f * g) + c * (d * h - e * g)

/-- The inverse of a matrix whose determinant is not zero. -/
def inverse : Matrix3 K → Matrix3 K
  | ⟨⟨⟨a, b, c⟩, ⟨d, e, f⟩, ⟨g, h, i⟩⟩⟩ =>
    let scale := 1.0 / determinant ⟨⟨⟨a, b, c⟩, ⟨d, e, f⟩, ⟨g, h, i⟩⟩⟩
    ⟨⟨(e * i - f * h) * scale, -((b * i - c * h) * scale), (b * f - c * e) * scale⟩,
      ⟨-((d * i - f * g) * scale), (a * i - c * g) * scale, -((a * f - c * d) * scale)⟩,
      ⟨(d * h - e * g) * scale, -((a * h - b * g) * scale), (a * e - b * d) * scale⟩⟩

end Matrix3

end CssColor
