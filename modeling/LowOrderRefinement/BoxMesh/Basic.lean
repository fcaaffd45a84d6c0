import LowOrderRefinement.BoxMesh.Ordering
import LowOrderRefinement.Refinement
import LowOrderRefinement.Space

/-! Boxes of tensor-product elements of one order, cut into sub-cells. The nodes of all
elements form one lattice and are shared between neighbouring elements; the
sub-cells are the cells of this lattice and are numbered along it, not element by
element. Nodes start at the images of their reference positions under an affine
map and can be moved one by one. -/

namespace LowOrderRefinement

-- powers and products have one meaning, whatever is imported
attribute [local instance (1100)] instPowNat One.ofOfNat1

def latticeShape (elements : List Nat) (order : Nat) : List Nat :=
  elements.map fun n => n * order + 1

/-- A box of elements of one order with the positions of its nodes. -/
structure BoxMesh (α : Type) where
  dim : Dimension
  /-- The numbers of elements along the axes. -/
  elements : List Nat
  order : Nat
  /-- The coordinates of the nodes, in the order of the lattice. -/
  positions : Array (List α)
  basis : BasisFamily
  factors : Option (GeometricFactors α)
  length_elements : elements.length = dim.value
  order_pos : 0 < order
  size_positions : positions.size = (latticeShape elements order).prod
  length_position : ∀ x ∈ positions, x.length = dim.value
  nodes_fit : (latticeShape elements order).prod ≤ Size.maxEntries
  order_fit : (order + 1) ^ dim.value ≤ Size.maxEntries

namespace BoxMesh

/-- Why there is no box mesh for the given numbers. -/
inductive Rejection
  | dimension (dim : Nat)
  | order
  | fault (cause : Fault)
deriving DecidableEq

def Rejection.message : Rejection → String
  | dimension dim => "Structured LOR meshes must be 2D or 3D, got dimension " ++ toString dim
  | order => "Polynomial order must be at least 1"
  | fault _ => "The mesh is too large"

variable {α : Type}

def position [Scalar α] (dim : Dimension) (order : Nat) (map : List (List α))
    (translation : List α) (node : List Nat) : List α :=
  let reference := node.map fun c => Scalar.ofNat c * Scalar.recip order
  (List.range dim.value).map fun a =>
    Scalar.dot (map.getD a []) reference + translation.getD a 0

/-- The numbers of nodes along the axes, all of which and whose product have to be sizes. -/
def latticeChecked (elements : List Nat) (order : Nat) : Checked Unit := do
  let shape ← elements.mapM fun n => do Size.add (← Size.mul n order) 1
  discard (Size.product shape)

/-- The mesh of a box whose numbers of elements and order are known to be in range. -/
def build [Scalar α] (dim : Dimension) (elements : List Nat) (order : Nat)
    (map : List (List α)) (translation : List α) : Checked (BoxMesh α) :=
  if h : elements.length = dim.value ∧ 0 < order ∧
      (latticeShape elements order).prod ≤ Size.maxEntries ∧
      (order + 1) ^ dim.value ≤ Size.maxEntries then
    let nodes := Lattice.points (latticeShape elements order)
    .ok
      { dim, elements, order
        positions := (nodes.map (position dim order map translation)).toArray
        basis := .nodalTensor
        factors := none
        length_elements := h.1
        order_pos := h.2.1
        size_positions := by simp [nodes, Lattice.points]
        length_position := by simp [position]
        nodes_fit := h.2.2.1
        order_fit := h.2.2.2 }
  else .error .outOfStorage

/-- The mesh of a box under an affine map, given by the rows of its matrix and its translation. -/
def create [Scalar α] (elements : List Nat) (order : Nat) (map : List (List α))
    (translation : List α) : Except Rejection (BoxMesh α) := do
  match Dimension.ofNat? elements.length with
  | none => .error (.dimension elements.length)
  | some dim =>
    if order = 0 then .error .order
    else
      (latticeChecked elements order).mapError Rejection.fault
      (build dim elements order map translation).mapError Rejection.fault

def identity [Scalar α] (d : Nat) : List (List α) :=
  (List.range d).map fun i => (List.range d).map fun j => if i = j then 1 else 0

/-- The mesh of a box of unit elements with its lower corner at the origin. -/
def unit [Scalar α] (elements : List Nat) (order : Nat) : Except Rejection (BoxMesh α) :=
  create elements order (identity elements.length) (List.replicate elements.length 0)

/-- The numbers of nodes along the axes. -/
def lattice (m : BoxMesh α) : List Nat := latticeShape m.elements m.order

/-- The numbers of sub-cells along the axes. -/
def cells (m : BoxMesh α) : List Nat := m.elements.map (· * m.order)

/-- The number of the node at coordinates that need not lie in the lattice. -/
def nodeIndex (m : BoxMesh α) (coordinates : List Nat) : Checked Nat :=
  Lattice.flattenChecked coordinates m.lattice

def nodePosition (m : BoxMesh α) (node : Nat) : Checked (List α) := entryAt m.positions node

/-- The mesh with one node moved by a displacement. Stored geometric factors stay as they are. -/
def perturb [Scalar α] (m : BoxMesh α) (node : Nat) (displacement : List α) :
    Checked (BoxMesh α) :=
  if h : node < m.positions.size ∧ displacement.length = m.dim.value then
    .ok
      { m with
        positions := m.positions.set node (m.positions[node].zipWith (· + ·) displacement) h.1
        size_positions := by simp [m.size_positions]
        length_position := by
          intro x hx
          rcases Array.mem_or_eq_of_mem_set hx with hx | rfl
          · exact m.length_position x hx
          · simp [h.2, m.length_position] }
  else .error .outOfRange

def withFactors (m : BoxMesh α) (factors : Option (GeometricFactors α)) : BoxMesh α :=
  { m with factors }

def withBasis (m : BoxMesh α) (basis : BasisFamily) : BoxMesh α := { m with basis }

def cellCoordinates (m : BoxMesh α) (subcell : Nat) : List Nat :=
  Lattice.unflatten subcell m.cells

/-- The nodes at the vertices of a sub-cell, in the order of the vertices. -/
def subcellNodes (m : BoxMesh α) (subcell : Nat) : List Nat :=
  let cell := m.cellCoordinates subcell
  (Shape.vertices m.dim).map fun v => Lattice.flatten (Lattice.shift cell v) m.lattice

/-- The element of a sub-cell and its place in the grid of the element. -/
def embedding (m : BoxMesh α) (subcell : Nat) : Embedding :=
  let cell := m.cellCoordinates subcell
  { parent := Lattice.flatten (cell.map (· / m.order)) m.elements
    offset := Lattice.flatten (cell.map (· % m.order)) (cell.map fun _ => m.order) }

def vertices (m : BoxMesh α) (subcell : Nat) : List α :=
  (m.subcellNodes subcell).flatMap fun node => m.positions.getD node []

/-- The nodes on the boundary of the box, in increasing order. -/
def boundary (m : BoxMesh α) : List Nat :=
  (List.range m.positions.size).filter fun node =>
    ((Lattice.unflatten node m.lattice).zip m.lattice).any fun (c, n) => c = 0 ∨ c + 1 = n

/-- The node at a point of the grid of an element. -/
def elementNode (m : BoxMesh α) (element node : List Nat) : Nat :=
  Lattice.flatten (Lattice.shift node (element.map (· * m.order))) m.lattice

/-- The nodes of an element given by its coordinates, in the order of the element. -/
def elementDofs (m : BoxMesh α) (grid : List (List Nat)) (element : List Nat) : Array Nat :=
  (grid.map (m.elementNode element)).toArray

def nativeGrid (m : BoxMesh α) : List (List Nat) :=
  (NodeOrdering.native m.dim m.order).map fun lex =>
    Lattice.unflatten lex (NodeOrdering.shape m.dim m.order)

def refinement (m : BoxMesh α) : Refinement α where
  dim := m.dim.value
  subcells := m.cells.prod
  geometry _ :=
    match m.dim with
    | .two => .quadrilateral
    | .three => .hexahedron
  embedding := m.embedding
  vertices := m.vertices
  factors := m.factors

/-- The high-order space of a box mesh, whose degrees of freedom are its nodes. -/
def space (m : BoxMesh α) : Space :=
  let grid := m.nativeGrid
  { dim := m.dim.value
    elements := m.elements.prod
    basis := m.basis
    order := m.order
    numDofs := m.positions.size
    dofs := fun element => m.elementDofs grid (Lattice.unflatten element m.elements)
    ordering := NodeOrdering.lexicographic m.dim m.order }

def cellTable (m : BoxMesh α) : List (List α × List Nat) :=
  (List.range m.cells.prod).map fun subcell => (m.vertices subcell, m.subcellNodes subcell)

/-- The mesh with the geometric factors that follow from its nodes. -/
def computeFactors [Scalar α] (m : BoxMesh α) : Outcome α (BoxMesh α) := do
  return m.withFactors (some (← m.refinement.computeFactors))

end BoxMesh

end LowOrderRefinement
