import LowOrderRefinement.Tensor

/-! The vertex rules: products of the two-point Gauss–Lobatto rule on the unit
interval, whose points are the vertices of the unit square and cube. Points are
listed with the first coordinate fastest, which is not the order in which cells
list their vertices. -/

namespace LowOrderRefinement.Quadrature

variable {α : Type} [Scalar α]

/-- The weights and points of the trapezoidal rule on the unit interval. -/
def interval : List (α × α) := [(Scalar.half, 0), (Scalar.half, 1)]

def square : List (α × Vec2 α) :=
  interval.flatMap fun (wy, y) => interval.map fun (wx, x) => (wx * wy, ⟨x, y⟩)

def cube : List (α × Vec3 α) :=
  interval.flatMap fun (wz, z) => interval.flatMap fun (wy, y) =>
    interval.map fun (wx, x) => (wx * wy * wz, ⟨x, y, z⟩)

end LowOrderRefinement.Quadrature
