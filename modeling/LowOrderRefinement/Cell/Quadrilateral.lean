import LowOrderRefinement.Cell.Shape
import LowOrderRefinement.Tensor

/-! Quadrilaterals and the Jacobian of the bilinear map from the unit square onto
one. The Jacobian is given in two ways, in closed form and as the product of the
vertex coordinates with the gradients of the shape functions; the two agree in
exact arithmetic. -/

namespace LowOrderRefinement

/-- A quadrilateral by its vertices, counter-clockwise from the image of the origin. -/
structure Quadrilateral (α : Type) where
  v0 : Vec2 α
  v1 : Vec2 α
  v2 : Vec2 α
  v3 : Vec2 α

namespace Quadrilateral

variable {α : Type}

def ofCoordinates : List α → Checked (Quadrilateral α)
  | [x0, y0, x1, y1, x2, y2, x3, y3] => .ok ⟨⟨x0, y0⟩, ⟨x1, y1⟩, ⟨x2, y2⟩, ⟨x3, y3⟩⟩
  | _ => .error .wrongLength

def vertices (cell : Quadrilateral α) : List (Vec2 α) := [cell.v0, cell.v1, cell.v2, cell.v3]

variable [Scalar α]

def gradients (ξ : Vec2 α) : List (Vec2 α) :=
  Shape.squareVertices.map fun (a, b) =>
    ⟨Shape.slope a * Shape.value b ξ.y, Shape.value a ξ.x * Shape.slope b⟩

def jacobianOfGradients (cell : Quadrilateral α) (ξ : Vec2 α) : Mat2 α :=
  let g := gradients ξ
  let entry (coordinate derivative : Vec2 α → α) : α :=
    Scalar.dot (cell.vertices.map coordinate) (g.map derivative)
  ⟨entry (·.x) (·.x), entry (·.x) (·.y), entry (·.y) (·.x), entry (·.y) (·.y)⟩

/-- The derivative along the first axis of the bilinear function with the given vertex values. -/
def slopeX (ξ : Vec2 α) (a b c d : α) : α :=
  (-(1 - ξ.y)) * a + (1 - ξ.y) * b + ξ.y * c - ξ.y * d

def slopeY (ξ : Vec2 α) (a b c d : α) : α :=
  (-(1 - ξ.x)) * a - ξ.x * b + ξ.x * c + (1 - ξ.x) * d

def jacobian (cell : Quadrilateral α) (ξ : Vec2 α) : Mat2 α :=
  ⟨slopeX ξ cell.v0.x cell.v1.x cell.v2.x cell.v3.x,
    slopeY ξ cell.v0.x cell.v1.x cell.v2.x cell.v3.x,
    slopeX ξ cell.v0.y cell.v1.y cell.v2.y cell.v3.y,
    slopeY ξ cell.v0.y cell.v1.y cell.v2.y cell.v3.y⟩

end Quadrilateral

end LowOrderRefinement
