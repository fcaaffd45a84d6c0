/-! A high-order finite element space as assembly sees it: its order and basis, and
for every element the global degrees of freedom of its nodes. Elements list their
nodes in an order of their own; one ordering for the whole space says where the
nodes of the tensor-product grid are found in it. -/

namespace LowOrderRefinement

/-- The kind of basis of a space. -/
inductive BasisFamily
  /-- A nodal tensor-product basis. -/
  | nodalTensor
  | other
deriving DecidableEq

/-- The degrees of freedom of a space, element by element. -/
structure Space where
  dim : Nat
  elements : Nat
  basis : BasisFamily
  order : Nat
  numDofs : Nat
  /-- The global degrees of freedom of an element, in the order of the element. -/
  dofs : Nat → Array Nat
  /-- The place, in the order of the elements, of every node of the grid, the first axis fastest. -/
  ordering : Array Nat

end LowOrderRefinement
