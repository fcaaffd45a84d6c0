import LowOrderRefinement.Proofs.ExactField
import LowOrderRefinement.Proofs.BoxMesh.MeshConsistency
import LowOrderRefinement.Proofs.Cell.TextbookCell

/-! The sub-cells of a mesh by the positions of their corners. At a quadrature point the
rows of the Jacobian of a cell are the differences of its coordinates along the edges
that meet there. The corners of a sub-cell of a box mesh have the positions of the
nodes of the lattice there. -/

namespace LowOrderRefinement

variable {K : Type} [ExactField K]

/-! ### Cells -/

namespace Quadrilateral

def ofCorners {α : Type} (position : List Nat → Vec2 α) : Quadrilateral α :=
  ⟨position [0, 0], position [1, 0], position [1, 1], position [0, 1]⟩

/-- The rows of the Jacobian are the differences of the coordinates. -/
theorem jacobian_ofCorners (position : List Nat → Vec2 K) {q : Nat} (hq : q < 4) :
    (ofCorners position).jacobianOfGradients (Quadrature.planarPoint q) =
      let x := planarGradient (fun v => (position v).x) (q % 2) (q / 2)
      let y := planarGradient (fun v => (position v).y) (q % 2) (q / 2)
      ⟨x.x, x.y, y.x, y.y⟩ := by
  have hvertices (coordinate : Vec2 K → K) : (ofCorners position).vertices.map coordinate =
      (Shape.vertices .two).map fun v => coordinate (position v) := rfl
  simp only [jacobianOfGradients, hvertices, gradients_eq, List.map_map, Function.comp_def,
    Scalar.dot_map, ← sum_gradient _ hq]

end Quadrilateral

namespace Hexahedron

def ofCorners {α : Type} (position : List Nat → Vec3 α) : Hexahedron α :=
  ⟨position [0, 0, 0], position [1, 0, 0], position [1, 1, 0], position [0, 1, 0],
    position [0, 0, 1], position [1, 0, 1], position [1, 1, 1], position [0, 1, 1]⟩

theorem jacobian_ofCorners (position : List Nat → Vec3 K) {q : Nat} (hq : q < 8) :
    (ofCorners position).jacobian (Quadrature.solidPoint q) =
      let x := solidGradient (fun v => (position v).x) (q % 2) (q / 2 % 2) (q / 4)
      let y := solidGradient (fun v => (position v).y) (q % 2) (q / 2 % 2) (q / 4)
      let z := solidGradient (fun v => (position v).z) (q % 2) (q / 2 % 2) (q / 4)
      ⟨x.x, x.y, x.z, y.x, y.y, y.z, z.x, z.y, z.z⟩ := by
  have hvertices (coordinate : Vec3 K → K) : (ofCorners position).vertices.map coordinate =
      (Shape.vertices .three).map fun v => coordinate (position v) := rfl
  rw [jacobian_eq]
  simp only [jacobianOfGradients, combine, hvertices, gradients_eq, List.map_map,
    Function.comp_def, Scalar.dot_map, ← sum_gradient _ hq]

end Hexahedron

/-! ### Sub-cells of a mesh -/

namespace BoxMesh

variable {α : Type} [Scalar α]

def coordinate (m : BoxMesh α) (axis : Nat) (point : List Nat) : α :=
  (m.positions.getD (Lattice.flatten point m.lattice) []).getD axis 0

def planarPosition (m : BoxMesh α) (point : List Nat) : Vec2 α :=
  ⟨m.coordinate 0 point, m.coordinate 1 point⟩

def solidPosition (m : BoxMesh α) (point : List Nat) : Vec3 α :=
  ⟨m.coordinate 0 point, m.coordinate 1 point, m.coordinate 2 point⟩

theorem position_corner (m : BoxMesh α) {s : Nat} (hs : s < m.cells.prod) {v : List Nat}
    (hv : v ∈ Shape.vertices m.dim) :
    m.positions.getD (Lattice.flatten (Lattice.shift (m.cellCoordinates s) v) m.lattice) [] =
      (List.range m.dim.value).map fun axis =>
        m.coordinate axis (Lattice.shift (m.cellCoordinates s) v) := by
  have hcorner := (Shape.mem_vertices_iff m.length_cells).mp hv
  have hlt := Lattice.flatten_lt (m.inBox_corner hs hcorner)
  rw [lattice, ← m.size_positions] at hlt
  have hlength : (m.positions.getD
      (Lattice.flatten (Lattice.shift (m.cellCoordinates s) v) m.lattice) []).length =
      m.dim.value := by
    rw [Array.getD_eq_getD_getElem?, lattice, Array.getElem?_eq_getElem hlt]
    exact m.length_position _ (Array.getElem_mem hlt)
  refine List.ext_getElem (by simpa using hlength) fun axis haxis _ => ?_
  rw [List.getElem_map, List.getElem_range, coordinate, List.getD_eq_getElem?_getD,
    List.getElem?_eq_getElem haxis, Option.getD_some]

/-- The vertices of a sub-cell have the positions of the nodes at its corners. -/
theorem vertices_eq (m : BoxMesh α) {s : Nat} (hs : s < m.cells.prod) :
    m.vertices s = (Shape.vertices m.dim).flatMap fun v => (List.range m.dim.value).map fun axis =>
      m.coordinate axis (Lattice.shift (m.cellCoordinates s) v) := by
  rw [vertices, subcellNodes, List.flatMap_map]
  exact List.flatMap_congr fun v hv => m.position_corner hs hv

/-- A cell is that of a sub-cell when it has the nodes of the lattice as corners. -/
theorem decode_vertices (m : BoxMesh α) {s : Nat} (hs : s < m.cells.prod) {β : Type}
    {decode : List α → Checked β} {encode : β → List α} {n : Nat} (h : Decodes decode encode n)
    {cell : β} (hcell : encode cell = (Shape.vertices m.dim).flatMap fun v =>
      (List.range m.dim.value).map fun axis =>
        m.coordinate axis (Lattice.shift (m.cellCoordinates s) v)) :
    decode (m.vertices s) = .ok cell :=
  h.eq_ok_iff.mpr (hcell.trans (m.vertices_eq hs).symm)

theorem quadrilateral_eq (m : BoxMesh α) (hdim : m.dim = .two) {s : Nat}
    (hs : s < m.cells.prod) :
    m.refinement.quadrilateral s =
      .ok (.ofCorners fun v => m.planarPosition (Lattice.shift (m.cellCoordinates s) v)) :=
  m.decode_vertices hs Quadrilateral.decodes (by rw [hdim]; rfl)

theorem hexahedron_eq (m : BoxMesh α) (hdim : m.dim = .three) {s : Nat}
    (hs : s < m.cells.prod) :
    m.refinement.hexahedron s =
      .ok (.ofCorners fun v => m.solidPosition (Lattice.shift (m.cellCoordinates s) v)) :=
  m.decode_vertices hs Hexahedron.decodes (by rw [hdim]; rfl)

end BoxMesh

end LowOrderRefinement
