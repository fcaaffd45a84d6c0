import LowOrderRefinement.Size

/-! The two spatial dimensions of a refinement, and the numbers that they fix: the
components of a symmetric tensor, the vertices of a cell, and the sub-cells and
nodes of a tensor-product element of a given order. -/

namespace LowOrderRefinement

-- powers have one meaning, whatever is imported
attribute [local instance (1100)] instPowNat

/-- The spatial dimension of a mesh. -/
inductive Dimension
  | two
  | three
deriving DecidableEq

namespace Dimension

def value : Dimension → Nat
  | two => 2
  | three => 3

def ofNat? : Nat → Option Dimension
  | 2 => some two
  | 3 => some three
  | _ => none

/-- The number of independent entries of a symmetric tensor. -/
def components (d : Dimension) : Nat := d.value * (d.value + 1) / 2

/-- The number of vertices of a cell, which is also the number of its quadrature points. -/
def vertices (d : Dimension) : Nat := 2 ^ d.value

def subcells (d : Dimension) (order : Nat) : Checked Nat := Size.pow order d.value

def elementDofs (d : Dimension) (order : Nat) : Checked Nat := do
  Size.pow (← Size.add order 1) d.value

def label (d : Dimension) : String := toString d.value ++ "D"

end Dimension

end LowOrderRefinement
