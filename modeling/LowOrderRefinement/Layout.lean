import LowOrderRefinement.Lattice

/-! Addressing of multi-dimensional arrays in flat storage, with the first index
fastest. The stride of an axis is the product of the extents before it. A layout
has a shape whose extents can be multiplied one after the other, each product
being a size. -/

namespace LowOrderRefinement

-- products have one meaning, whatever is imported
attribute [local instance (1100)] One.ofOfNat1

/-- A dense arrangement of multi-indices in flat storage, by its extents. -/
structure Layout where
  shape : List Nat
  fits : Size.productFits shape = true

namespace Layout

/-- The layout of a shape in which the first index is contiguous. -/
def firstIndexFastest (shape : List Nat) : Checked Layout :=
  if h : Size.productFits shape then .ok ⟨shape, h⟩ else .error .sizeOverflow

def stridesFrom (stride : Nat) : List Nat → List Nat
  | [] => []
  | extent :: shape => stride :: stridesFrom (stride * extent) shape

def strides (layout : Layout) : List Nat := stridesFrom 1 layout.shape

def length (layout : Layout) : Checked Nat := Size.product layout.shape

theorem length_eq (layout : Layout) : layout.length = .ok layout.shape.prod :=
  Size.product_of_fits layout.fits

def dotStrides : List Nat → List Nat → Checked Nat
  | i :: index, s :: strides => do Size.add (← Size.mul i s) (← dotStrides index strides)
  | _, _ => .ok 0

/-- The place in storage of an index that has to be in range. -/
def offset (layout : Layout) (index : List Nat) : Checked Nat := do
  require (Lattice.inBox index layout.shape) .outOfRange
  dotStrides index layout.strides

end Layout

end LowOrderRefinement
