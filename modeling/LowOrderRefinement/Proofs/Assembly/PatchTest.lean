import LowOrderRefinement.Proofs.BoxMesh.AffineMesh
import LowOrderRefinement.Proofs.ExactField
import LowOrderRefinement.Proofs.BoxMesh.Incidence
import LowOrderRefinement.Proofs.Assembly.Semidefinite

/-! The patch test. Applied to the nodal values of an affine function, an assembled matrix
without essential degrees of freedom gives zero at every node inside of the mesh. In
the plane a sub-cell brings to a corner the flux of the function between the
neighbours of the corner, and the fluxes around a node cancel however the nodes are
moved. In space this holds while all sub-cells have one metric; then they bring
opposite amounts to opposite corners. -/

namespace LowOrderRefinement

open Finset

variable {K : Type} [ExactField K]

/-! ### One sub-cell -/

/-- A planar metric applied to the pulled back gradient of an affine function is the adjugate
of the Jacobian applied to its slopes. -/
theorem Metric.form_transpose_mulVec {j : Mat2 K} {w : K} {m : Sym2 K} (h : planar j w = .ok m)
    (g slopes : Vec2 K) :
    m.form g (j.transpose.mulVec slopes) =
      w * (g.x * (j.yy * slopes.x - j.xy * slopes.y) +
        g.y * (j.xx * slopes.y - j.yx * slopes.x)) := by
  obtain ⟨hdet, rfl⟩ := planar_eq_ok.mp h
  have hne : j.xx * j.yy - j.yx * j.xy ≠ 0 := hdet.ne'
  simp only [Sym2.form, Mat2.transpose, Mat2.mulVec, Mat2.det]
  field_simp
  ring

/-- The corners of a square after and before a corner, counter-clockwise. -/
def Shape.nextCorner : List Nat → List Nat
  | [a, b] => [1 - b, a]
  | corner => corner

def Shape.previousCorner : List Nat → List Nat
  | [a, b] => [b, 1 - a]
  | corner => corner

/-- Half the flux of an affine function through the segment between the neighbours of a corner. -/
def planarFlux (slopes : Vec2 K) (position : List Nat → Vec2 K) (corner : List Nat) : K :=
  let after := position (Shape.nextCorner corner)
  let before := position (Shape.previousCorner corner)
  Scalar.half * (slopes.x * (after.y - before.y) - slopes.y * (after.x - before.x))

/-- The energy of an affine function on a planar sub-cell is its flux at the corners. -/
theorem Kernel.energy_planar_affine {terms : Array K} {cell : Nat} {position : List Nat → Vec2 K}
    (hmetric : ∀ q < 4, Metric.planar
      ((Quadrilateral.ofCorners position).jacobianOfGradients (Quadrature.planarPoint q)) (1 / 4) =
        .ok (planarMetric terms cell q)) (slopes : Vec2 K) (offset : K) (u : List Nat → K) :
    energy .two terms cell u (fun v => slopes.dot (position v) + offset) =
      ((Shape.vertices .two).map fun v => u v * planarFlux slopes position v).sum := by
  have hpoint : ∀ q ∈ range 4, (planarMetric terms cell q).form (planarGradient u (q % 2) (q / 2))
      (planarGradient (fun v => slopes.dot (position v) + offset) (q % 2) (q / 2)) =
      let x := planarGradient (fun v => (position v).x) (q % 2) (q / 2)
      let y := planarGradient (fun v => (position v).y) (q % 2) (q / 2)
      let g := planarGradient u (q % 2) (q / 2)
      1 / 4 * (g.x * (y.y * slopes.x - x.y * slopes.y) +
        g.y * (x.x * slopes.y - y.x * slopes.x)) := by
    intro q hq
    rw [mem_range] at hq
    have hjacobian := Quadrilateral.jacobian_ofCorners position hq
    have hform := Metric.form_transpose_mulVec (hmetric q hq)
      (planarGradient u (q % 2) (q / 2)) slopes
    rw [hjacobian] at hform
    rw [← hform]
    congr 1
    simp only [planarGradient, Mat2.transpose, Mat2.mulVec, Vec2.dot, Vec2.mk.injEq]
    constructor <;> ring
  rw [energy, sum_congr rfl hpoint]
  simp only [sum_range_succ, sum_range_zero, planarGradient, Shape.vertices, Shape.squareVertices,
    List.map_cons, List.map_nil, List.sum_cons, List.sum_nil, planarFlux, Shape.nextCorner,
    Shape.previousCorner, Nat.reduceMod, Nat.reduceDiv, Nat.reduceSub, ExactField.half_eq]
  ring

/-- The slopes of the function of a corner of a cube along the edges at the corner. -/
def cornerSlopes (corner : List Nat) : Vec3 K :=
  ⟨Shape.slope (corner.getD 0 0), Shape.slope (corner.getD 1 0), Shape.slope (corner.getD 2 0)⟩

/-- With one metric, the energy of a function with one gradient on a spatial sub-cell. -/
theorem Kernel.energy_solid_affine {terms : Array K} {cell : Nat} {m : Sym3 K}
    (hmetric : ∀ q < 8, solidMetric terms cell q = m) {w : List Nat → K} {g : Vec3 K}
    (hw : ∀ q < 8, solidGradient w (q % 2) (q / 2 % 2) (q / 4) = g) (u : List Nat → K) :
    energy .three terms cell u w =
      ((Shape.vertices .three).map fun v => u v * (2 * m.form (cornerSlopes v) g)).sum := by
  have hpoint : ∀ q ∈ range 8, (solidMetric terms cell q).form
      (solidGradient u (q % 2) (q / 2 % 2) (q / 4)) (solidGradient w (q % 2) (q / 2 % 2) (q / 4)) =
      m.form (solidGradient u (q % 2) (q / 2 % 2) (q / 4)) g := by
    intro q hq
    rw [mem_range] at hq
    rw [hmetric q hq, hw q hq]
  rw [energy, sum_congr rfl hpoint]
  simp only [sum_range_succ, sum_range_zero, solidGradient, Shape.vertices, Shape.cubeVertices,
    List.map_cons, List.map_nil, List.sum_cons, List.sum_nil, cornerSlopes, Shape.slope, Sym3.form,
    Nat.reduceMod, Nat.reduceDiv]
  norm_num
  ring

/-! ### Around a node -/

theorem sum_planarFlux (slopes : Vec2 K) (position : List Nat → Vec2 K) (i j : Nat) :
    ((Shape.vertices .two).map fun v => planarFlux slopes
      (fun w => position (Lattice.shift (Lattice.unshift [i + 1, j + 1] v) w)) v).sum = 0 := by
  simp only [Shape.vertices, Shape.squareVertices, List.map_cons, List.map_nil, List.sum_cons,
    List.sum_nil, planarFlux, Shape.nextCorner, Shape.previousCorner, Lattice.unshift,
    Lattice.shift, List.zipWith_cons_cons, List.zipWith_nil_right, Nat.add_sub_cancel,
    Nat.reduceSub, Nat.sub_zero, Nat.add_zero]
  ring

theorem sum_cornerSlopes (m : Sym3 K) (g : Vec3 K) :
    ((Shape.vertices .three).map fun v => 2 * m.form (cornerSlopes v) g).sum = 0 := by
  simp only [Shape.vertices, Shape.cubeVertices, List.map_cons, List.map_nil, List.sum_cons,
    List.sum_nil, cornerSlopes, Shape.slope, Sym3.form]
  norm_num
  ring

def affine (slopes : List K) (offset : K) (x : List K) : K := Scalar.dot slopes x + offset

section Mesh

variable {mesh : BoxMesh K} {options : Options K} {source : JacobianSource K} {m : MetricArray K}
  {a : Csr K}

/-- Where sub-cells bring amounts to their corners that do not depend on the corner values of the
other function, the row of a node inside of the mesh sums the amounts around the node. -/
theorem Assembly.Assembled.row_eq
    (h : Assembled mesh.refinement mesh.space [] options mesh.dim source m a) {U : Nat → K}
    (load : List Nat → List Nat → K)
    (hload : ∀ s < mesh.cells.prod, ∀ u : List Nat → K,
      Kernel.energy mesh.dim (m.terms (mesh.embedding s).parent) (mesh.embedding s).offset u
          (fun v => U (mesh.refinement.cornerDof mesh.space mesh.dim s v)) =
        ((Shape.vertices mesh.dim).map fun v => u v * load (mesh.cellCoordinates s) v).sum)
    {n : Nat} (hn : n < mesh.space.numDofs) (hboundary : n ∉ mesh.boundary) :
    ∑ j ∈ range mesh.space.numDofs, a.value n j * U j = ((Shape.vertices mesh.dim).map fun v =>
      load (Lattice.unshift (Lattice.unflatten n mesh.lattice) v) v).sum := by
  have hrow := a.form_single_left (h.nrows_eq ▸ hn) U
  rw [h.ncols_eq] at hrow
  rw [← hrow, h.form_eq, ← mesh.sum_corners hn hboundary]
  refine sum_congr rfl fun s hs => ?_
  rw [Refinement.energy]
  refine (hload s (mem_range.mp hs) _).trans (congrArg List.sum (List.map_congr_left fun v _ => ?_))
  rw [Pi.single_apply]
  split <;> simp

end Mesh

namespace BoxMesh

section Nodal

variable {mesh : BoxMesh K} {slopes : List K} {offset : K} {U : Nat → K}
  (hU : ∀ n x, mesh.nodePosition n = .ok x → U n = affine slopes offset x)

include hU

theorem nodal_corner {s : Nat} (hs : s < mesh.cells.prod) {v : List Nat}
    (hv : v ∈ Shape.vertices mesh.dim) :
    U (mesh.refinement.cornerDof mesh.space mesh.dim s v) =
      ∑ axis ∈ range mesh.dim.value, slopes.getD axis 0 *
        mesh.coordinate axis (Lattice.shift (mesh.cellCoordinates s) v) + offset := by
  have hcorner := (Shape.mem_vertices_iff mesh.length_cells).mp hv
  have hlt := Lattice.flatten_lt (mesh.inBox_corner hs hcorner)
  rw [lattice, ← mesh.size_positions] at hlt
  have hposition : mesh.nodePosition
      (Lattice.flatten (Lattice.shift (mesh.cellCoordinates s) v) mesh.lattice) =
      .ok ((List.range mesh.dim.value).map fun axis =>
        mesh.coordinate axis (Lattice.shift (mesh.cellCoordinates s) v)) := by
    rw [nodePosition, entryAt_eq_ok, ← mesh.position_corner hs hv, Array.getD_eq_getD_getElem?,
      lattice, Array.getElem?_eq_getElem hlt, Option.getD_some]
  rw [mesh.cornerDof_eq hs hcorner, hU _ _ hposition, affine, dot_map_range]

end Nodal

section Unperturbed

variable {mesh : BoxMesh K} {map : List (List K)} {translation : List K}
  (hmesh : mesh.Unperturbed map translation) (hdim : mesh.dim = .three)

include hmesh hdim

theorem solidGradient_affine {s : Nat} (hs : s < mesh.cells.prod) (slopes : List K) (offset : K)
    {q : Nat} (hq : q < 8) :
    let x (axis : Nat) (v : List Nat) : K :=
      mesh.coordinate axis (Lattice.shift (mesh.cellCoordinates s) v)
    solidGradient (fun v => ∑ axis ∈ range 3, slopes.getD axis 0 * x axis v + offset)
        (q % 2) (q / 2 % 2) (q / 4) =
      (solidCellMap map mesh.order).transpose.mulVec
        ⟨slopes.getD 0 0, slopes.getD 1 0, slopes.getD 2 0⟩ := by
  intro x
  have hx (axis : Nat) (haxis : axis < 3) :=
    solidGradient_coordinate hmesh hs hdim haxis (Nat.mod_lt q two_pos)
      (Nat.mod_lt (q / 2) two_pos) (show q / 4 < 2 by omega)
  have hx0 := hx 0 (by decide)
  have hx1 := hx 1 (by decide)
  have hx2 := hx 2 (by decide)
  simp only [solidGradient, Vec3.mk.injEq] at hx0 hx1 hx2
  simp only [solidGradient, x, sum_range_succ, sum_range_zero, solidCellMap, Mat3.transpose,
    Mat3.mulVec, ← hx0, ← hx1, ← hx2, Vec3.mk.injEq]
  refine ⟨?_, ?_, ?_⟩ <;> ring

theorem exists_solidMetric {source : JacobianSource K} {order elements : Nat} {m : MetricArray K}
    (heval : mesh.refinement.Evaluated .three order elements source m) :
    ∃ metric : Sym3 K, ∀ s < mesh.cells.prod, ∀ q < 8,
      Kernel.solidMetric (m.terms (mesh.embedding s).parent) (mesh.embedding s).offset q =
        metric := by
  have hmetrics : ∀ s < mesh.cells.prod, ∀ q < 8,
      Metric.solid (solidCellMap map mesh.order) (1 / 8) =
        .ok (Kernel.solidMetric (m.terms (mesh.embedding s).parent) (mesh.embedding s).offset q) :=
    fun s hs q hq => solidMetric_of_unperturbed hmesh hs hdim heval hq
  cases hj : Metric.solid (solidCellMap map mesh.order) (1 / 8) with
  | ok metric =>
    exact ⟨metric, fun s hs q hq => (Except.ok.inj (hj.symm.trans (hmetrics s hs q hq))).symm⟩
  | error det =>
    -- then there is no sub-cell
    refine ⟨⟨0, 0, 0, 0, 0, 0⟩, fun s hs q hq => ?_⟩
    cases hj.symm.trans (hmetrics s hs q hq)

end Unperturbed

section Rows

variable {mesh : BoxMesh K} {options : Options K} {source : JacobianSource K} {m : MetricArray K}
  {a : Csr K} (h : Assembly.Assembled mesh.refinement mesh.space [] options mesh.dim source m a)
  {slopes : List K} {offset : K} {U : Nat → K}
  (hU : ∀ n x, mesh.nodePosition n = .ok x → U n = affine slopes offset x)
  {n : Nat} (hn : n < mesh.space.numDofs) (hboundary : n ∉ mesh.boundary)

include h hU hn hboundary

/-- Planar meshes pass the patch test wherever their nodes are. -/
theorem row_planar (hdim : mesh.dim = .two) (hcurrent : mesh.Current options) :
    ∑ j ∈ range mesh.space.numDofs, a.value n j * U j = 0 := by
  let slope : Vec2 K := ⟨slopes.getD 0 0, slopes.getD 1 0⟩
  let position (cell v : List Nat) : Vec2 K := mesh.planarPosition (Lattice.shift cell v)
  rw [h.row_eq (fun cell => planarFlux slope (position cell)) (fun s hs u => ?_) hn hboundary]
  · have hinterior := (mesh.notMem_boundary_iff hn).mp hboundary
    have hlength : (Lattice.unflatten n mesh.lattice).length = 2 := by
      rw [Lattice.length_unflatten, ← mesh.nodeShape_cells, Lattice.nodeShape, List.length_map,
        length_cells, hdim]
      rfl
    obtain ⟨x, y, hxy⟩ := List.length_eq_two.mp hlength
    have hpos := Lattice.pos_of_interior hinterior
    rw [hxy] at hpos
    obtain ⟨i, rfl⟩ := Nat.exists_eq_add_of_lt (hpos x (by simp))
    obtain ⟨j, rfl⟩ := Nat.exists_eq_add_of_lt (hpos y (by simp))
    rw [hxy, hdim, Nat.zero_add, Nat.zero_add]
    exact sum_planarFlux slope mesh.planarPosition i j
  · obtain ⟨cell, hcell, hmetrics⟩ := (hdim ▸ h.evaluated :
      mesh.refinement.Evaluated .two mesh.space.order mesh.space.elements source m).planar hs
    have hsource : mesh.refinement.jacobianSource .two options = .ok source := hdim ▸ h.source_eq
    have hmetric : ∀ q < 4, Metric.planar ((Quadrilateral.ofCorners
        (position (mesh.cellCoordinates s))).jacobianOfGradients (Quadrature.planarPoint q))
        (1 / 4) = .ok (Kernel.planarMetric (m.terms (mesh.embedding s).parent)
          (mesh.embedding s).offset q) := by
      intro q hq
      obtain ⟨j, hj, hplanar⟩ := hmetrics q hq
      obtain rfl := mesh.planar_of_current hcurrent hdim hsource hs hcell hq hj
      obtain rfl := Except.ok.inj (hcell.symm.trans (mesh.quadrilateral_eq hdim hs))
      exact hplanar
    rw [hdim, ← Kernel.energy_planar_affine hmetric slope offset]
    refine Kernel.energy_congr (fun _ _ => rfl) fun v hv => ?_
    have hnodal := nodal_corner hU hs (hdim ▸ hv)
    rw [hdim] at hnodal
    rw [hnodal, Dimension.value, sum_range_succ, sum_range_one]
    rfl

/-- Spatial meshes pass the patch test while their nodes are in place. -/
theorem row_solid (hdim : mesh.dim = .three) {map : List (List K)} {translation : List K}
    (hmesh : mesh.Unperturbed map translation) :
    ∑ j ∈ range mesh.space.numDofs, a.value n j * U j = 0 := by
  have heval : mesh.refinement.Evaluated .three mesh.space.order mesh.space.elements source m :=
    hdim ▸ h.evaluated
  obtain ⟨metric, hmetric⟩ := exists_solidMetric hmesh hdim heval
  let g := (solidCellMap map mesh.order).transpose.mulVec
    ⟨slopes.getD 0 0, slopes.getD 1 0, slopes.getD 2 0⟩
  rw [h.row_eq (fun _ v => 2 * metric.form (cornerSlopes v) g) (fun s hs u => ?_) hn hboundary]
  · rw [hdim]
    exact sum_cornerSlopes metric g
  · have hgradient := fun q (hq : q < 8) => solidGradient_affine hmesh hdim hs slopes offset hq
    rw [hdim, ← Kernel.energy_solid_affine (hmetric s hs) hgradient]
    refine Kernel.energy_congr (fun _ _ => rfl) fun v hv => ?_
    have hnodal := nodal_corner hU hs (hdim ▸ hv)
    rwa [hdim] at hnodal

end Rows

/-- The patch test. At every node that is not on the boundary, the row of an assembled matrix
without essential degrees of freedom gives zero for the nodal values of an affine function: for
planar meshes with any positions of the nodes and factors that are up to date, and for spatial
meshes whose nodes have not been moved. -/
theorem assemble_patch (schedule : Schedule) (mesh : BoxMesh K) (options : Options K) (a : Csr K)
    (h : (Assembly.assemble schedule mesh.refinement mesh.space [] options).result = .ok a)
    (hmesh : (mesh.dim = .two ∧ mesh.Current options) ∨
      (mesh.dim = .three ∧ ∃ map translation, mesh.Unperturbed map translation))
    (slopes : List K) (offset : K) (U : Nat → K)
    (hU : ∀ n x, mesh.nodePosition n = .ok x → U n = affine slopes offset x) :
    ∀ n < mesh.space.numDofs, n ∉ mesh.boundary →
      ∑ j ∈ range mesh.space.numDofs, a.value n j * U j = 0 := by
  intro n hn hboundary
  obtain ⟨dim, source, m, h⟩ := Assembly.assemble_spec h
  obtain rfl : mesh.dim = dim := Dimension.eq_of_value_eq h.checks.space_dim
  rcases hmesh with ⟨hdim, hcurrent⟩ | ⟨hdim, map, translation, hmesh⟩
  · exact row_planar h hU hn hboundary hdim hcurrent
  · exact row_solid h hU hn hboundary hdim hmesh

/-- Four squares whose common corner has been moved. -/
def movedCenter : BoxMesh ℚ :=
  { bentSquares with
    elements := [2, 2]
    positions := #[[0, 0], [1, 0], [2, 0], [0, 1], [5 / 4, 3 / 4], [2, 1], [0, 2], [1, 2], [2, 2]]
    length_elements := rfl
    size_positions := rfl
    length_position := by decide
    nodes_fit := by decide }

/-- Around the node that has been moved, the values of `2 x - y + 3` pass the patch test. -/
theorem assemble_patch_movedCenter :
    ∃ a, (Assembly.assemble .inOrder movedCenter.refinement movedCenter.space []
        (Options.standard.withParallel false)).result = .ok a ∧
      ∑ j ∈ range 9, a.value 4 j * affine [2, -1] 3 (movedCenter.positions.getD j []) = 0 := by
  have hok : (Assembly.assemble .inOrder movedCenter.refinement movedCenter.space []
      (Options.standard.withParallel false)).result.isOk = true := by
    rw [movedCenter.space_of_bilinear rfl rfl]
    decide +kernel
  obtain ⟨a, ha⟩ := exists_of_isOk hok
  have hvalues (n : Nat) (x : List ℚ) (h : movedCenter.nodePosition n = .ok x) :
      affine [2, -1] 3 (movedCenter.positions.getD n []) = affine [2, -1] 3 x := by
    rw [nodePosition, entryAt_eq_ok] at h
    rw [Array.getD_eq_getD_getElem?, h, Option.getD_some]
  exact ⟨a, ha, assemble_patch .inOrder movedCenter _ a ha (.inl ⟨rfl, .inr (.inr (.inl rfl))⟩)
    [2, -1] 3 _ hvalues 4 (by decide) (by decide)⟩

end BoxMesh

end LowOrderRefinement
