import LowOrderRefinement.Error
import LowOrderRefinement.Stencil.Planar
import LowOrderRefinement.Stencil.Solid

/-! The contributions of one element to the global matrix. A kernel takes the metric
terms of the element in flat storage, the global degrees of freedom of its nodes
in the order of the element, and the ordering that locates the nodes of the grid
in that order. There are kernels for the orders from one to sixteen. -/

namespace LowOrderRefinement

-- powers have one meaning, whatever is imported
attribute [local instance (1100)] instPowNat

variable {α : Type}

/-- The contributions of an element from its metric terms, degrees of freedom and ordering. -/
abbrev Kernel (α : Type) := Array α → Array Nat → Array Nat → Checked (List (Triplet α))

namespace Kernel

variable [Scalar α]

def planarMetric (terms : Array α) (cell point : Nat) : Sym2 α :=
  let start := 3 * (point + 4 * cell)
  ⟨terms.getD start 0, terms.getD (start + 1) 0, terms.getD (start + 2) 0⟩

def solidMetric (terms : Array α) (cell point : Nat) : Sym3 α :=
  let start := 6 * (point + 8 * cell)
  ⟨terms.getD start 0, terms.getD (start + 1) 0, terms.getD (start + 2) 0,
    terms.getD (start + 3) 0, terms.getD (start + 4) 0, terms.getD (start + 5) 0⟩

/-- The contributions of an element by the numbers of its nodes. -/
def nodeTriplets (dim : Dimension) (order : Nat) (terms : Array α) : List (Triplet α) :=
  match dim with
  | .two => Stencil.Planar.triplets order (planarMetric terms)
  | .three => Stencil.Solid.triplets order (solidMetric terms)

def ofOrder (dim : Dimension) (order : Nat) : Kernel α := fun terms dofs ordering => do
  require (terms.size = dim.components * dim.vertices * order ^ dim.value) .wrongLength
  require (ordering.size = (order + 1) ^ dim.value) .wrongLength
  require (ordering.all (· < dofs.size)) .outOfRange
  return (nodeTriplets dim order terms).map (·.relabel fun node =>
    dofs.getD (ordering.getD node 0) 0)

/-- The kernel of an order for which there is one. -/
def select (dim : Dimension) (order : Nat) : Outcome α (Kernel α) :=
  if order = 0 ∨ maxOrder < order then .refuse (.unsupportedOrder order)
  else .ok (ofOrder dim order)

/-- The local matrix of a spatial sub-cell, column by column, from its metric terms. -/
def subcellMatrix (terms : Array α) : Checked (List α) := do
  require (terms.size = 48) .wrongLength
  return Stencil.Solid.localMatrix ((List.range 8).map (solidMetric terms 0))
    Stencil.Solid.gradients

end Kernel

end LowOrderRefinement
