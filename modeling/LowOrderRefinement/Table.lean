import LowOrderRefinement.Refinement
import LowOrderRefinement.Space

/-! Refinements and spaces that are given by tables of their parts. -/

namespace LowOrderRefinement

variable {α : Type}

/-- One sub-cell of a table. -/
structure Subcell (α : Type) where
  geometry : SubcellGeometry
  embedding : Embedding
  /-- The coordinates of the vertices, vertex by vertex. -/
  vertices : List α

def Refinement.ofTable (dim : Nat) (cells : Array (Subcell α))
    (factors : Option (GeometricFactors α)) : Refinement α where
  dim
  subcells := cells.size
  geometry s := (cells[s]?.map (·.geometry)).getD .other
  embedding s := (cells[s]?.map (·.embedding)).getD ⟨0, 0⟩
  vertices s := (cells[s]?.map (·.vertices)).getD []
  factors

def Space.ofTable (dim : Nat) (basis : BasisFamily) (order numDofs : Nat)
    (elements : Array (Array Nat)) (ordering : Array Nat) : Space where
  dim
  elements := elements.size
  basis
  order
  numDofs
  dofs e := elements.getD e #[]
  ordering

end LowOrderRefinement
