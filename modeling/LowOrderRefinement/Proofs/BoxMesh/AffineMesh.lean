import LowOrderRefinement.Proofs.BoxMesh.Corners
import LowOrderRefinement.Proofs.ExactField

/-! Meshes whose nodes have not been moved. Their nodes are the images of the points of the
lattice under the affine map of the mesh, so that all sub-cells have the same Jacobian
at all quadrature points: the matrix of the map, divided by the order. -/

namespace LowOrderRefinement

/-! ### Creation -/

namespace BoxMesh

section Creation

variable {α : Type} [Scalar α]

/-- Every node is where the affine map puts it. -/
def Unperturbed (m : BoxMesh α) (map : List (List α)) (translation : List α) : Prop :=
  m.positions =
    ((Lattice.points m.lattice).map (position m.dim m.order map translation)).toArray

/-- A created mesh has the numbers of elements and the order that were asked for, the basis that
can be assembled and no stored factors, and its nodes are in place. -/
theorem create_spec {elements : List Nat} {order : Nat} {map : List (List α)}
    {translation : List α} {m : BoxMesh α} (h : create elements order map translation = .ok m) :
    m.elements = elements ∧ m.order = order ∧ m.basis = .nodalTensor ∧ m.factors = none ∧
      m.Unperturbed map translation := by
  unfold create at h
  split at h
  · cases h
  · split at h
    · cases h
    · obtain ⟨-, -, h⟩ := bind_eq_ok.mp h
      have hbuild := mapError_eq_ok.mp h
      unfold build at hbuild
      split at hbuild
      · cases hbuild
        exact ⟨rfl, rfl, rfl, rfl, rfl⟩
      · cases hbuild

theorem coordinate_of_unperturbed {m : BoxMesh α} {map : List (List α)} {translation : List α}
    (h : m.Unperturbed map translation) {axis : Nat} (haxis : axis < m.dim.value)
    {point : List Nat} (hpoint : Lattice.inBox point m.lattice) :
    m.coordinate axis point = Scalar.dot (map.getD axis [])
        (point.map fun c => Scalar.ofNat c * Scalar.recip m.order) + translation.getD axis 0 := by
  have hlt := Lattice.flatten_lt hpoint
  have hposition : m.positions.getD (Lattice.flatten point m.lattice) [] =
      position m.dim m.order map translation point := by
    rw [h, Lattice.points, List.map_map, Array.getD_eq_getD_getElem?, List.getElem?_toArray,
      List.getElem?_map, List.getElem?_range hlt, Option.map_some, Option.getD_some,
      Function.comp_apply, Lattice.unflatten_flatten hpoint]
  rw [coordinate, hposition, position, List.getD_eq_getElem?_getD, List.getElem?_map,
    List.getElem?_range haxis]
  rfl

end Creation

/-! ### Jacobians -/

open Finset

variable {K : Type} [ExactField K]

def planarCellMap (map : List (List K)) (order : Nat) : Mat2 K :=
  let entry (row column : Nat) : K := (map.getD row []).getD column 0 / order
  ⟨entry 0 0, entry 0 1, entry 1 0, entry 1 1⟩

def solidCellMap (map : List (List K)) (order : Nat) : Mat3 K :=
  let entry (row column : Nat) : K := (map.getD row []).getD column 0 / order
  { xx := entry 0 0, xy := entry 0 1, xz := entry 0 2
    yx := entry 1 0, yy := entry 1 1, yz := entry 1 2
    zx := entry 2 0, zy := entry 2 1, zz := entry 2 2 }

theorem dot_eq_sum (row xs : List K) :
    Scalar.dot row xs = ∑ k ∈ range xs.length, row.getD k 0 * xs.getD k 0 := by
  rw [Scalar.dot, Scalar.sumLeft_eq]
  induction xs generalizing row with
  | nil => simp
  | cons x xs ih =>
    cases row with
    | nil => simp
    | cons a row =>
      rw [List.zipWith_cons_cons, List.sum_cons, ih, List.length_cons, sum_range_succ', add_comm]
      rfl

theorem dot_map_range (row : List K) (n : Nat) (f : Nat → K) :
    Scalar.dot row ((List.range n).map f) = ∑ k ∈ range n, row.getD k 0 * f k := by
  rw [dot_eq_sum, List.length_map, List.length_range]
  refine sum_congr rfl fun k hk => ?_
  simp [List.getD_eq_getElem?_getD, mem_range.mp hk]

section Unperturbed

variable {m : BoxMesh K} {map : List (List K)} {translation : List K}
  (h : m.Unperturbed map translation) {s : Nat} (hs : s < m.cells.prod)

include h hs

/-- Along an edge of a sub-cell a coordinate changes by an entry of the matrix. -/
theorem coordinate_edge {axis b : Nat} (haxis : axis < m.dim.value) (hb : b < m.dim.value)
    {v : List Nat} (hv : v ∈ Shape.vertices m.dim) :
    m.coordinate axis (Lattice.shift (m.cellCoordinates s) (v.set b 1)) -
        m.coordinate axis (Lattice.shift (m.cellCoordinates s) (v.set b 0)) =
      (map.getD axis []).getD b 0 / m.order := by
  obtain ⟨hlength, hlt⟩ := Shape.mem_vertices.mp hv
  have hcell : (m.cellCoordinates s).length = m.dim.value := by
    rw [cellCoordinates, Lattice.length_unflatten, length_cells]
  have hcoordinate (t : Nat) (ht : t < 2) :
      m.coordinate axis (Lattice.shift (m.cellCoordinates s) (v.set b t)) =
        ∑ k ∈ range m.dim.value, (map.getD axis []).getD k 0 *
          (((m.cellCoordinates s).getD k 0 + (v.set b t).getD k 0 : Nat) * (1 / m.order)) +
            translation.getD axis 0 := by
    have hset : v.set b t ∈ Shape.vertices m.dim := by
      refine Shape.mem_vertices.mpr ⟨by rw [List.length_set, hlength], fun c hc => ?_⟩
      rcases List.mem_or_eq_of_mem_set hc with hc | rfl
      · exact hlt c hc
      · exact ht
    rw [coordinate_of_unperturbed h haxis
      (m.inBox_corner hs ((Shape.mem_vertices_iff m.length_cells).mp hset)), dot_eq_sum]
    simp only [Lattice.shift, List.length_map, List.length_zipWith, List.length_set, hcell, hlength,
      min_self]
    congr 1
    refine sum_congr rfl fun k hk => ?_
    rw [mem_range] at hk
    simp [List.getD_eq_getElem?_getD, hcell, hlength, hk, ExactField.ofNat_eq, ExactField.recip_eq]
  rw [hcoordinate 1 one_lt_two, hcoordinate 0 two_pos, add_sub_add_right_eq_sub,
    ← sum_sub_distrib, sum_eq_single_of_mem b (mem_range.mpr hb)]
  · simp [hlength, hb]
    ring
  · intro k _ hk
    simp [hk.symm]

theorem planarGradient_coordinate (hdim : m.dim = .two) {axis a b : Nat} (haxis : axis < 2)
    (ha : a < 2) (hb : b < 2) :
    planarGradient (fun v => m.coordinate axis (Lattice.shift (m.cellCoordinates s) v)) a b =
      ⟨(map.getD axis []).getD 0 0 / m.order, (map.getD axis []).getD 1 0 / m.order⟩ := by
  have hvalue : m.dim.value = 2 := by rw [hdim]; rfl
  have hv : [a, b] ∈ Shape.vertices m.dim :=
    Shape.mem_vertices.mpr ⟨hvalue.symm, by simp only [List.forall_mem_cons]; simp [ha, hb]⟩
  have hedge (e : Nat) (he : e < 2) :=
    coordinate_edge h hs (haxis.trans_eq hvalue.symm) (he.trans_eq hvalue.symm) hv
  simp only [planarGradient, ← hedge 0 two_pos, ← hedge 1 one_lt_two]
  rfl

theorem solidGradient_coordinate (hdim : m.dim = .three) {axis a b c : Nat} (haxis : axis < 3)
    (ha : a < 2) (hb : b < 2) (hc : c < 2) :
    solidGradient (fun v => m.coordinate axis (Lattice.shift (m.cellCoordinates s) v)) a b c =
      ⟨(map.getD axis []).getD 0 0 / m.order, (map.getD axis []).getD 1 0 / m.order,
        (map.getD axis []).getD 2 0 / m.order⟩ := by
  have hvalue : m.dim.value = 3 := by rw [hdim]; rfl
  have hv : [a, b, c] ∈ Shape.vertices m.dim :=
    Shape.mem_vertices.mpr ⟨hvalue.symm, by simp only [List.forall_mem_cons]; simp [ha, hb, hc]⟩
  have hedge (e : Nat) (he : e < 3) :=
    coordinate_edge h hs (haxis.trans_eq hvalue.symm) (he.trans_eq hvalue.symm) hv
  simp only [solidGradient, ← hedge 0 (by decide), ← hedge 1 (by decide), ← hedge 2 (by decide)]
  rfl

/-- All planar sub-cells have the same Jacobian everywhere. -/
theorem planar_of_unperturbed (hdim : m.dim = .two) {cell : Quadrilateral K}
    (hcell : m.refinement.quadrilateral s = .ok cell) {q : Nat} (hq : q < 4) :
    cell.jacobianOfGradients (Quadrature.planarPoint q) = planarCellMap map m.order := by
  rw [m.quadrilateral_eq hdim hs] at hcell
  obtain rfl := Except.ok.inj hcell
  have hgradient (axis : Nat) (haxis : axis < 2) :=
    planarGradient_coordinate h hs hdim haxis (Nat.mod_lt q two_pos) (show q / 2 < 2 by omega)
  simp only [Quadrilateral.jacobian_ofCorners _ hq, planarPosition, hgradient 0 (by decide),
    hgradient 1 (by decide), planarCellMap]

theorem solid_of_unperturbed (hdim : m.dim = .three) {cell : Hexahedron K}
    (hcell : m.refinement.hexahedron s = .ok cell) {q : Nat} (hq : q < 8) :
    cell.jacobian (Quadrature.solidPoint q) = solidCellMap map m.order := by
  rw [m.hexahedron_eq hdim hs] at hcell
  obtain rfl := Except.ok.inj hcell
  have hgradient (axis : Nat) (haxis : axis < 3) :=
    solidGradient_coordinate h hs hdim haxis (Nat.mod_lt q two_pos) (Nat.mod_lt (q / 2) two_pos)
      (show q / 4 < 2 by omega)
  simp only [Hexahedron.jacobian_ofCorners _ hq, solidPosition, hgradient 0 (by decide),
    hgradient 1 (by decide), hgradient 2 (by decide), solidCellMap]

/-- The planar metrics of an up to date mesh are all that of the one Jacobian. -/
theorem planarMetric_of_unperturbed (hdim : m.dim = .two) {options : Options K}
    (hcurrent : m.Current options) {source : JacobianSource K}
    (hsource : m.refinement.jacobianSource .two options = .ok source) {order elements : Nat}
    {terms : MetricArray K} (heval : m.refinement.Evaluated .two order elements source terms)
    {q : Nat} (hq : q < 4) :
    Metric.planar (planarCellMap map m.order) (1 / 4) =
      .ok (Kernel.planarMetric (terms.terms (m.embedding s).parent) (m.embedding s).offset q) := by
  obtain ⟨cell, hcell, hmetrics⟩ := heval.planar hs
  obtain ⟨j, hj, hmetric⟩ := hmetrics q hq
  obtain rfl := m.planar_of_current hcurrent hdim hsource hs hcell hq hj
  rwa [planar_of_unperturbed h hs hdim hcell hq] at hmetric

theorem solidMetric_of_unperturbed (hdim : m.dim = .three) {source : JacobianSource K}
    {order elements : Nat} {terms : MetricArray K}
    (heval : m.refinement.Evaluated .three order elements source terms) {q : Nat} (hq : q < 8) :
    Metric.solid (solidCellMap map m.order) (1 / 8) =
      .ok (Kernel.solidMetric (terms.terms (m.embedding s).parent) (m.embedding s).offset q) := by
  obtain ⟨cell, hcell, hmetrics⟩ := heval.solid hs
  have hmetric := hmetrics q hq
  rwa [solid_of_unperturbed h hs hdim hcell hq] at hmetric

end Unperturbed

end BoxMesh

end LowOrderRefinement
