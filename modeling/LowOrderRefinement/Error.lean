import LowOrderRefinement.Decimal.Shortest
import LowOrderRefinement.Dimension

/-! The causes for which an assembly is refused, and their messages. An error names
the first offending sub-cell, element or entry; a non-positive determinant is
reported in the scalar in which it was computed. -/

namespace LowOrderRefinement

/-- What is wrong with the place that a refinement gives to a sub-cell. -/
inductive EmbeddingDefect
  | parentOutOfBounds
  | offsetOutOfBounds
  | offsetOccupied
  | other (reason : String)
deriving DecidableEq

namespace EmbeddingDefect

def text : EmbeddingDefect → String
  | parentOutOfBounds => "parent element index out of bounds"
  | offsetOutOfBounds => "sub-cell offset out of bounds"
  | offsetOccupied => "another sub-cell occupies the same offset"
  | other reason => reason

end EmbeddingDefect

/-- A size on which a refinement and a space have to agree. -/
inductive Quantity
  | refinementDimension
  | orderingLength
  | subcells
  | factorDimension
  | factorSubcells
  | jacobianEntries
  | elementDofs
  | other (name : String)
deriving DecidableEq

namespace Quantity

def text : Quantity → String
  | refinementDimension => "refinement dimension"
  | orderingLength => "lexicographic ordering length"
  | subcells => "number of sub-cells"
  | factorDimension => "geometric factor dimension"
  | factorSubcells => "geometric factor sub-cells"
  | jacobianEntries => "number of Jacobian entries"
  | elementDofs => "element degree-of-freedom count"
  | other name => name

end Quantity

/-- The highest order for which elements can be assembled. -/
def maxOrder : Nat := 16

/-- Why an assembly is refused. -/
inductive Error (α : Type)
  /-- The basis of the space is not a nodal tensor-product basis. -/
  | unsupportedBasis
  | unsupportedOrder (order : Nat)
  | unsupportedDimension (dim : Nat)
  /-- A sub-cell has another geometry than the cells of the dimension. -/
  | unsupportedGeometry (subcell : Nat)
  | invalidEmbedding (subcell : Nat) (defect : EmbeddingDefect)
  | mismatch (quantity : Quantity) (expected actual : Nat)
  /-- The Jacobian of a sub-cell does not preserve orientation at a quadrature point. -/
  | nonPositiveDeterminant (parent subcell point : Nat) (determinant : α)
  /-- A stored Jacobian is too far from the one that the vertices give. -/
  | jacobianMismatch (subcell point : Nat)
  | dofOutOfBounds (element dof numDofs : Nat)
  /-- An entry of the lexicographic ordering is too large or repeats an earlier one. -/
  | invalidOrdering (index : Nat)
deriving DecidableEq

namespace Error

def map {α β : Type} (f : α → β) : Error α → Error β
  | unsupportedBasis => unsupportedBasis
  | unsupportedOrder order => unsupportedOrder order
  | unsupportedDimension dim => unsupportedDimension dim
  | unsupportedGeometry subcell => unsupportedGeometry subcell
  | invalidEmbedding subcell defect => invalidEmbedding subcell defect
  | mismatch quantity expected actual => mismatch quantity expected actual
  | nonPositiveDeterminant parent subcell point determinant =>
    nonPositiveDeterminant parent subcell point (f determinant)
  | jacobianMismatch subcell point => jacobianMismatch subcell point
  | dofOutOfBounds element dof numDofs => dofOutOfBounds element dof numDofs
  | invalidOrdering index => invalidOrdering index

/-- The geometric fact behind an error, for errors that have one. -/
def cause? : Error Float → Option String
  | nonPositiveDeterminant parent subcell point determinant =>
    some ("Non-positive Jacobian determinant " ++ Decimal.ofFloat determinant ++
      " in sub-cell " ++ toString subcell ++ " (parent element " ++ toString parent ++
      ") at quadrature point " ++ toString point)
  | _ => none

def message : Error Float → String
  | unsupportedBasis => "LOR assembly requires a nodal tensor-product (lexicographic) basis"
  | unsupportedOrder order =>
    "Unsupported polynomial order " ++ toString order ++ " (supported orders are 1 to " ++
      toString maxOrder ++ ")"
  | unsupportedDimension dim =>
    "Unsupported spatial dimension " ++ toString dim ++ " (must be 2 or 3)"
  | unsupportedGeometry subcell =>
    "Sub-cell " ++ toString subcell ++
      " is not a quadrilateral or hexahedron matching the mesh dimension"
  | invalidEmbedding subcell defect =>
    "Invalid refinement embedding for sub-cell " ++ toString subcell ++ ": " ++ defect.text
  | mismatch quantity expected actual =>
    "Mismatched " ++ quantity.text ++ ": expected " ++ toString expected ++ ", got " ++
      toString actual
  | e@(nonPositiveDeterminant ..) => "Geometry error: " ++ (cause? e).getD ""
  | jacobianMismatch subcell point =>
    "Precomputed Jacobian of sub-cell " ++ toString subcell ++ " at quadrature point " ++
      toString point ++ " does not match the Jacobian computed from its vertices"
  | dofOutOfBounds element dof numDofs =>
    "Element " ++ toString element ++ " references degree of freedom " ++ toString dof ++
      " but the space only has " ++ toString numDofs
  | invalidOrdering index =>
    "Lexicographic ordering is not a permutation: entry " ++ toString index ++
      " is out of bounds or repeated"

end Error

/-- What ends an assembly without a matrix: an error about its input, or a fault. -/
inductive Failure (α : Type)
  | error (cause : Error α)
  | fault (cause : Fault)
deriving DecidableEq

def Failure.isFault {α : Type} : Failure α → Bool
  | error _ => false
  | fault _ => true

/-- A result, unless the input is refused or a requirement is broken. -/
abbrev Outcome (α : Type) := Except (Failure α)

instance {α : Type} : MonadLift Checked (Outcome α) where
  monadLift x := x.mapError Failure.fault

namespace Outcome

variable {α β : Type}

def refuse (cause : Error α) : Outcome α β := .error (.error cause)

def dimension (dim : Nat) : Outcome α Dimension :=
  match Dimension.ofNat? dim with
  | some d => .ok d
  | none => refuse (.unsupportedDimension dim)

/-- Checks that two parties agree on a quantity. -/
def agree (quantity : Quantity) (expected actual : Nat) : Outcome α Unit :=
  if expected = actual then .ok () else refuse (.mismatch quantity expected actual)

end Outcome

end LowOrderRefinement
