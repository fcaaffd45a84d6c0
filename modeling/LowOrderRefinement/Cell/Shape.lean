import LowOrderRefinement.Dimension
import LowOrderRefinement.Scalar

/-! The reference cells, which are the unit square and cube, and the linear shape
functions on the unit interval from which the shape functions of the cells are
products. Vertices run counter-clockwise around the square; those of the cube run
around its bottom face and then around its top face. -/

namespace LowOrderRefinement.Shape

def squareVertices : List (Nat × Nat) := [(0, 0), (1, 0), (1, 1), (0, 1)]

def cubeVertices : List (Nat × Nat × Nat) :=
  [(0, 0, 0), (1, 0, 0), (1, 1, 0), (0, 1, 0), (0, 0, 1), (1, 0, 1), (1, 1, 1), (0, 1, 1)]

/-- The vertices of the reference cell as lists of coordinates. -/
def vertices : Dimension → List (List Nat)
  | .two => squareVertices.map fun (a, b) => [a, b]
  | .three => cubeVertices.map fun (a, b, c) => [a, b, c]

variable {α : Type} [Scalar α]

/-- The linear function that is one at `node` and zero at the other end of the unit interval. -/
def value (node : Nat) (t : α) : α := if node = 0 then 1 - t else t

def slope (node : Nat) : α := if node = 0 then -1 else 1

end LowOrderRefinement.Shape
