import LowOrderRefinement.Cell.Shape
import LowOrderRefinement.Lattice

/-! The order in which a tensor-product element lists its nodes: first the vertices
in the order of the vertices of a cell, then the nodes inside edges, then those
inside faces and at last those inside the element. The nodes of one edge or face
follow each other in increasing lexicographic order. -/

namespace LowOrderRefinement.NodeOrdering

-- products have one meaning, whatever is imported
attribute [local instance (1100)] One.ofOfNat1

def shape (dim : Dimension) (order : Nat) : List Nat := List.replicate dim.value (order + 1)

/-- Zero at the lower end of an axis, two at its upper end and one between them. -/
def location (order c : Nat) : Nat := if c = 0 then 0 else if c = order then 2 else 1

def interiorAxes (order : Nat) (node : List Nat) : Nat :=
  (node.filter fun c => c ≠ 0 ∧ c ≠ order).length

/-- The number of the vertex at which a node lies, or zero when it lies at none. -/
def vertexRank (dim : Dimension) (order : Nat) (node : List Nat) : Nat :=
  ((Shape.vertices dim).findIdx? fun v => node = v.map (· * order)).getD 0

/-- The number of the vertex, edge, face or interior on which a node lies. -/
def entity (order : Nat) (node : List Nat) : Nat :=
  Lattice.flatten (node.map (location order)) (node.map fun _ => 3)

/-- What nodes are sorted by, most significant first. -/
structure Key where
  interiorAxes : Nat
  vertexRank : Nat
  entity : Nat
  lexicographic : Nat
deriving DecidableEq

def Key.le (a b : Key) : Bool :=
  if a.interiorAxes ≠ b.interiorAxes then a.interiorAxes < b.interiorAxes
  else if a.vertexRank ≠ b.vertexRank then a.vertexRank < b.vertexRank
  else if a.entity ≠ b.entity then a.entity < b.entity
  else a.lexicographic ≤ b.lexicographic

def key (dim : Dimension) (order lexicographic : Nat) : Key :=
  let node := Lattice.unflatten lexicographic (shape dim order)
  { interiorAxes := interiorAxes order node
    vertexRank := vertexRank dim order node
    entity := entity order node
    lexicographic }

/-- The lexicographic numbers of the nodes of an element in the order of the element. -/
def native (dim : Dimension) (order : Nat) : List Nat :=
  let keys := (List.range (shape dim order).prod).map (key dim order)
  (keys.mergeSort Key.le).map (·.lexicographic)

/-- The places of the numbers below the length of a list of all of them. -/
def inverse (xs : List Nat) : Array Nat :=
  xs.zipIdx.foldl (fun places (x, i) => places.setIfInBounds x i)
    (Array.replicate xs.length 0)

/-- The place of every node in the order of an element, by lexicographic number. -/
def lexicographic (dim : Dimension) (order : Nat) : Array Nat := inverse (native dim order)

end LowOrderRefinement.NodeOrdering
