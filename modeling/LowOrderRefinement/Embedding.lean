import LowOrderRefinement.Dimension
import LowOrderRefinement.Lattice

/-! The place of a sub-cell in the element from which it is cut. An element of order
`p` has a grid of `p` sub-cells along every axis, and the offset of a sub-cell is
its number in this grid with the first axis fastest. -/

namespace LowOrderRefinement

/-- The element of a sub-cell and the place of the sub-cell in its grid. -/
structure Embedding where
  parent : Nat
  offset : Nat
deriving DecidableEq

namespace Embedding

/-- The place at the given coordinates of the grid of an element. -/
def ofCoordinates (parent order : Nat) (coordinates : List Nat) : Checked Embedding := do
  let offset ← coordinates.foldrM (fun k acc => do Size.add (← Size.mul acc order) k) 0
  return { parent, offset }

def gridCoordinates (e : Embedding) (order : Nat) (dim : Dimension) : List Nat :=
  Lattice.unflatten e.offset (List.replicate dim.value order)

/-- The coordinates of a sub-cell in the grid of its element, filled up with zeros to three. -/
def coordinates (e : Embedding) (order : Nat) (dim : Dimension) : Checked (List Nat) := do
  require (0 < order) .emptyExtent
  return e.gridCoordinates order dim ++ List.replicate (3 - dim.value) 0

end Embedding

end LowOrderRefinement
