import LowOrderRefinement.Cell.Hexahedron
import LowOrderRefinement.Cell.Quadrilateral
import LowOrderRefinement.Embedding
import LowOrderRefinement.GeometricFactors
import LowOrderRefinement.Quadrature

/-! A refined mesh as assembly sees it: for every sub-cell its geometry, its place in
an element and the coordinates of its vertices, and possibly stored Jacobians.
The Jacobians of all sub-cells can be computed from the vertices. -/

namespace LowOrderRefinement

/-- The geometry of a sub-cell. -/
inductive SubcellGeometry
  | quadrilateral
  | hexahedron
  | other
deriving DecidableEq

namespace SubcellGeometry

/-- Whether sub-cells of this geometry make up meshes of the given dimension. -/
def fits : SubcellGeometry → Dimension → Bool
  | quadrilateral, .two => true
  | hexahedron, .three => true
  | _, _ => false

end SubcellGeometry

/-- The sub-cells of a mesh, numbered from zero. -/
structure Refinement (α : Type) where
  dim : Nat
  subcells : Nat
  geometry : Nat → SubcellGeometry
  embedding : Nat → Embedding
  /-- The coordinates of the vertices of a sub-cell, vertex by vertex. -/
  vertices : Nat → List α
  /-- Jacobians of the sub-cells, for meshes that provide them. -/
  factors : Option (GeometricFactors α)

namespace Refinement

variable {α : Type}

def quadrilateral (r : Refinement α) (subcell : Nat) : Checked (Quadrilateral α) :=
  Quadrilateral.ofCoordinates (r.vertices subcell)

def hexahedron (r : Refinement α) (subcell : Nat) : Checked (Hexahedron α) :=
  Hexahedron.ofCoordinates (r.vertices subcell)

def checkGeometry (r : Refinement α) (dim : Dimension) (subcell : Nat) :
    Outcome α Unit :=
  if (r.geometry subcell).fits dim then .ok () else .refuse (.unsupportedGeometry subcell)

variable [Scalar α]

/-- The rows of the Jacobians of a sub-cell, point by point. -/
def jacobianRows (r : Refinement α) (dim : Dimension) (subcell : Nat) :
    Checked (List (List (List α))) :=
  match dim with
  | .two => do
    let cell ← r.quadrilateral subcell
    return Quadrature.square.map fun (_, ξ) => (cell.jacobianOfGradients ξ).rows
  | .three => do
    let cell ← r.hexahedron subcell
    return Quadrature.cube.map fun (_, ξ) => (cell.jacobianOfGradients ξ).rows

/-- The Jacobians of all sub-cells, computed from their vertices and the gradients of the shape
functions. -/
def computeFactors (r : Refinement α) : Outcome α (GeometricFactors α) := do
  let dim ← Outcome.dimension r.dim
  let layout ← Layout.firstIndexFastest [dim.vertices, dim.value, dim.value, r.subcells]
  Size.reserve (← layout.length)
  let cells ← (List.range r.subcells).mapM fun subcell => do
    r.checkGeometry dim subcell
    return GeometricFactors.cellEntries dim.value (← r.jacobianRows dim subcell)
  GeometricFactors.ofEntries r.dim r.subcells cells.flatten.toArray

end Refinement

end LowOrderRefinement
