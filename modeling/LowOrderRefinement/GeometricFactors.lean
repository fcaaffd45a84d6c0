import LowOrderRefinement.Error
import LowOrderRefinement.Layout
import LowOrderRefinement.Tensor

/-! Stored Jacobians of the sub-cells of a refinement at their quadrature points,
addressed by quadrature point, row, column and sub-cell, the first fastest. -/

namespace LowOrderRefinement

-- products have one meaning, whatever is imported
attribute [local instance (1100)] One.ofOfNat1

/-- Jacobians by point, row, column and sub-cell. -/
structure GeometricFactors (α : Type) where
  dim : Dimension
  subcells : Nat
  layout : Layout
  jacobians : Array α
  shape_layout : layout.shape = [dim.vertices, dim.value, dim.value, subcells]
  size_jacobians : jacobians.size = layout.shape.prod

namespace GeometricFactors

variable {α : Type}

/-- The factors with the given entries, which have to be as many as the shape asks for. -/
def ofEntries (dim subcells : Nat) (entries : Array α) : Outcome α (GeometricFactors α) := do
  let d ← Outcome.dimension dim
  let shape := [d.vertices, d.value, d.value, subcells]
  if fits : Size.productFits shape then
    if size : entries.size = shape.prod then
      return {
        dim := d, subcells, jacobians := entries
        layout := ⟨shape, fits⟩
        shape_layout := rfl
        size_jacobians := size }
    else .refuse (.mismatch .jacobianEntries shape.prod entries.size)
  else .error (.fault .sizeOverflow)

def points (f : GeometricFactors α) : Nat := f.dim.vertices

/-- The entries of one sub-cell, given the rows of its Jacobians point by point. -/
def cellEntries [Zero α] (d : Nat) (jacobians : List (List (List α))) : List α :=
  (List.range d).flatMap fun column => (List.range d).flatMap fun row =>
    jacobians.map fun rows => (rows.getD row []).getD column 0

def entry (f : GeometricFactors α) (subcell point row column : Nat) : Checked α := do
  entryAt f.jacobians (← f.layout.offset [point, row, column, subcell])

def planar (f : GeometricFactors α) (subcell point : Nat) : Checked (Mat2 α) := do
  require (f.dim = .two) .unsupported
  let entry := f.entry subcell point
  return Mat2.mk (← entry 0 0) (← entry 0 1) (← entry 1 0) (← entry 1 1)

def solid (f : GeometricFactors α) (subcell point : Nat) : Checked (Mat3 α) := do
  require (f.dim = .three) .unsupported
  let entry := f.entry subcell point
  return Mat3.mk (← entry 0 0) (← entry 0 1) (← entry 0 2)
    (← entry 1 0) (← entry 1 1) (← entry 1 2)
    (← entry 2 0) (← entry 2 1) (← entry 2 2)

end GeometricFactors

end LowOrderRefinement
