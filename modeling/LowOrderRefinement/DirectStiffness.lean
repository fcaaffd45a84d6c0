import LowOrderRefinement.Cell.Hexahedron
import LowOrderRefinement.Cell.Quadrilateral
import LowOrderRefinement.Dense

/-! The stiffness matrix of a collection of cells by the textbook formula: on every
cell the reference gradients are pulled back with the explicit inverse of the
Jacobian, and the vertex rule sums their products times the determinant. -/

namespace LowOrderRefinement.DirectStiffness

variable {α : Type} [Scalar α]

def addRows (a b : List (List α)) : List (List α) :=
  a.zipWith (fun u v => u.zipWith (· + ·) v) b

def zeroRows (n : Nat) : List (List α) := List.replicate n (List.replicate n 0)

/-- Products of all pairs of the pulled back gradients of a quadrilateral at a point. -/
def planarPoint (cell : Quadrilateral α) (ξ : Vec2 α) : Checked (List (List α)) :=
  let j := cell.jacobianOfGradients ξ
  match j.inverse with
  | none => .error .singular
  | some inverse =>
    let weight := Scalar.recip 4 * j.det
    let gradients := (Quadrilateral.gradients ξ).map inverse.transpose.mulVec
    .ok (gradients.map fun u => gradients.map fun v => u.dot v * weight)

def solidPoint (cell : Hexahedron α) (ξ : Vec3 α) : Checked (List (List α)) :=
  let j := cell.jacobianOfGradients ξ
  match j.inverse with
  | none => .error .singular
  | some inverse =>
    let weight := Scalar.recip 8 * j.det
    let gradients := (Hexahedron.gradients ξ).map inverse.transpose.mulVec
    .ok (gradients.map fun u => gradients.map fun v => u.dot v * weight)

/-- The stiffness matrix of a quadrilateral, by rows in the order of its vertices. -/
def planarCell (cell : Quadrilateral α) : Checked (List (List α)) :=
  Shape.squareVertices.foldlM (fun acc (a, b) => do
    return addRows acc (← planarPoint cell ⟨Scalar.ofNat a, Scalar.ofNat b⟩)) (zeroRows 4)

def solidCell (cell : Hexahedron α) : Checked (List (List α)) :=
  Shape.cubeVertices.foldlM (fun acc (a, b, c) => do
    return addRows acc
      (← solidPoint cell ⟨Scalar.ofNat a, Scalar.ofNat b, Scalar.ofNat c⟩)) (zeroRows 8)

def cellRows (dim : Nat) (vertices : List α) : Checked (List (List α)) :=
  match Dimension.ofNat? dim with
  | none => .error .unsupported
  | some .two => do planarCell (← Quadrilateral.ofCoordinates vertices)
  | some .three => do solidCell (← Hexahedron.ofCoordinates vertices)

def cell (dim : Nat) (vertices : List α) : Checked (Dense α) := do
  let rows ← cellRows dim vertices
  Dense.ofEntries rows.length rows.length rows.flatten.toArray

/-- Adds the stiffness matrix of a cell to the entries of its vertices. -/
def addCell (dim : Nat) (m : Dense α) (vertices : List α) (indices : List Nat) :
    Checked (Dense α) := do
  let k ← cell dim vertices
  indices.zipIdx.foldlM (fun m (i, row) =>
    indices.zipIdx.foldlM (fun m (j, col) =>
      match k.get? row col with
      | some v => m.add i j v
      | none => .error .outOfRange) m) m

/-- The stiffness matrix of cells given by their vertex coordinates and vertex numbers. -/
def assemble (dim numDofs : Nat) (cells : List (List α × List Nat)) : Checked (Dense α) := do
  cells.foldlM (fun m (vertices, indices) => addCell dim m vertices indices)
    (← Dense.zeros numDofs numDofs)

end LowOrderRefinement.DirectStiffness
