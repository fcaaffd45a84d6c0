import LowOrderRefinement.BoxMesh.Basic

/-! Reading single sub-cells and elements of a box mesh by number. A number beyond the
last one stands for the one that it leaves as remainder, so that reading fails
only when there is nothing to read or the space for it has the wrong length. -/

namespace LowOrderRefinement.BoxMesh

-- products have one meaning, whatever is imported
attribute [local instance (1100)] One.ofOfNat1

variable {α : Type}

def requireCells (m : BoxMesh α) : Checked Unit :=
  require (m.elements.all (0 < ·)) .emptyExtent

def readNodes (m : BoxMesh α) (subcell : Nat) : Checked (List Nat) := do
  m.requireCells
  return m.subcellNodes subcell

def readEmbedding (m : BoxMesh α) (subcell : Nat) : Checked Embedding := do
  m.requireCells
  return m.embedding subcell

def vertexLength (m : BoxMesh α) : Nat := m.dim.value * m.dim.vertices

def elementLength (m : BoxMesh α) : Nat := (NodeOrdering.shape m.dim m.order).prod

/-- The vertex coordinates of a sub-cell, for which there is space of the given length. -/
def readVertices (m : BoxMesh α) (subcell length : Nat) : Checked (List α) := do
  require (length = m.vertexLength) .wrongLength
  m.requireCells
  return m.vertices subcell

def readElementDofs (m : BoxMesh α) (element length : Nat) : Checked (List Nat) := do
  require (length = m.elementLength) .wrongLength
  m.requireCells
  return (m.space.dofs element).toList

end LowOrderRefinement.BoxMesh
