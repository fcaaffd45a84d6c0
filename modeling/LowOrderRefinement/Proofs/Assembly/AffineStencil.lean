import LowOrderRefinement.Proofs.Errors.Acceptance
import LowOrderRefinement.Proofs.BoxMesh.AffineMetric
import LowOrderRefinement.Proofs.Stencil.CornerCoupling
import LowOrderRefinement.Proofs.Errors.FirstRefusal
import LowOrderRefinement.Proofs.BoxMesh.Incidence
import LowOrderRefinement.Proofs.BoxMesh.MeshConsistency
import LowOrderRefinement.Proofs.Invariance.Symmetry

/-! The matrix of a mesh whose nodes have not been moved, in closed form. All sub-cells have one
metric, so that two nodes are coupled by the energy of two corners, once for each
sub-cell that contains them both. The energy depends on the displacement from one node
to the other only: it is that of an edge, of the diagonal of a face, or zero. -/

namespace LowOrderRefinement

open Finset

/-! ### Points of a lattice -/

namespace Lattice

theorem near_self (point : List Nat) : near point point := by
  induction point with
  | nil => rfl
  | cons c point ih => simp [near, ih]

theorem unflatten_zero (shape : List Nat) : unflatten 0 shape = shape.map fun _ => 0 := by
  induction shape with
  | nil => rfl
  | cons n shape ih => rw [unflatten, Nat.zero_mod, Nat.zero_div, ih, List.map_cons]

theorem flatten_origin (point shape : List Nat) : flatten (point.map fun _ => 0) shape = 0 := by
  induction point generalizing shape with
  | nil => rfl
  | cons c point ih =>
    cases shape with
    | nil => rfl
    | cons n shape => rw [List.map_cons, flatten, ih, Nat.zero_mul]

theorem along_shift {d : Nat} {cell corner : List Nat} (hcell : cell.length = d)
    (hcorner : corner.length = d) (axis : Fin d) :
    along (shift cell corner) axis = along cell axis + along corner axis := by
  have hc : axis.val < cell.length := hcell ▸ axis.isLt
  have hv : axis.val < corner.length := hcorner ▸ axis.isLt
  simp [along, shift, List.getD_eq_getElem?_getD, hc, hv]

end Lattice

/-! ### Couplings of nodes -/

namespace BoxMesh

variable {K : Type} [ExactField K]

section Nodes

variable {α : Type}

def gridPoint (m : BoxMesh α) (node : Nat) (axis : Fin m.dim.value) : Nat :=
  Lattice.along (Lattice.unflatten node m.lattice) axis

/-- The sub-cells that contain both of two nodes. -/
def sharedCells (m : BoxMesh α) (i j : Nat) : Finset Nat :=
  {s ∈ range m.cells.prod | i ∈ m.subcellNodes s ∧ j ∈ m.subcellNodes s}

theorem mem_subcellNodes {m : BoxMesh α} {s n : Nat} (hs : s < m.cells.prod) :
    n ∈ m.subcellNodes s ↔
      ∃ v ∈ Shape.vertices m.dim, m.refinement.cornerDof m.space m.dim s v = n := by
  rw [m.subcellNodes_eq hs, List.mem_map]

theorem length_cellCoordinates (m : BoxMesh α) (s : Nat) :
    (m.cellCoordinates s).length = m.dim.value := by
  rw [cellCoordinates, Lattice.length_unflatten, length_cells]

theorem length_vertex {dim : Dimension} {v : List Nat} (hv : v ∈ Shape.vertices dim) :
    v.length = dim.value := by
  cases dim <;> revert v <;> decide

theorem cornerDof_inj (m : BoxMesh α) {s : Nat} (hs : s < m.cells.prod) {v w : List Nat}
    (hv : v ∈ Shape.vertices m.dim) (hw : w ∈ Shape.vertices m.dim)
    (h : m.refinement.cornerDof m.space m.dim s v = m.refinement.cornerDof m.space m.dim s w) :
    v = w := by
  have hv' := (Shape.mem_vertices_iff m.length_cells).mp hv
  have hw' := (Shape.mem_vertices_iff m.length_cells).mp hw
  rw [m.cornerDof_eq hs hv', m.cornerDof_eq hs hw'] at h
  have hshift := congrArg (Lattice.unflatten · m.lattice) h
  simp only [Lattice.unflatten_flatten (m.inBox_corner hs hv'),
    Lattice.unflatten_flatten (m.inBox_corner hs hw')] at hshift
  have hcell := m.length_cellCoordinates s
  exact Lattice.shift_left_inj ((length_vertex hv).trans hcell.symm)
    ((length_vertex hw).trans hcell.symm) hshift

theorem gridPoint_cornerDof (m : BoxMesh α) {s : Nat} (hs : s < m.cells.prod) {v : List Nat}
    (hv : v ∈ Shape.vertices m.dim) (axis : Fin m.dim.value) :
    m.gridPoint (m.refinement.cornerDof m.space m.dim s v) axis =
      Lattice.along (m.cellCoordinates s) axis + Lattice.along v axis := by
  have hv' := (Shape.mem_vertices_iff m.length_cells).mp hv
  rw [gridPoint, m.cornerDof_eq hs hv', Lattice.unflatten_flatten (m.inBox_corner hs hv'),
    Lattice.along_shift (m.length_cellCoordinates s) (length_vertex hv)]

theorem moved_gridPoint (m : BoxMesh α) {s : Nat} (hs : s < m.cells.prod) {v w : List Nat}
    (hv : v ∈ Shape.vertices m.dim) (hw : w ∈ Shape.vertices m.dim) :
    Shape.moved (m.gridPoint (m.refinement.cornerDof m.space m.dim s v))
        (m.gridPoint (m.refinement.cornerDof m.space m.dim s w)) =
      Shape.moved (Lattice.along (d := m.dim.value) v) (Lattice.along w) := by
  ext axis
  rw [Shape.mem_moved, Shape.mem_moved, gridPoint_cornerDof m hs hv, gridPoint_cornerDof m hs hw,
    Ne, Nat.add_left_cancel_iff]

theorem along_lt {dim : Dimension} {v : List Nat} (hv : v ∈ Shape.vertices dim)
    (axis : Fin dim.value) : Lattice.along v axis < 2 := by
  cases dim <;> revert axis v <;> decide

end Nodes

theorem single_cornerDof (m : BoxMesh K) {s : Nat} (hs : s < m.cells.prod) {v : List Nat}
    (hv : v ∈ Shape.vertices m.dim) :
    ∀ w ∈ Shape.vertices m.dim,
      (Pi.single (m.refinement.cornerDof m.space m.dim s v) 1 : Nat → K)
          (m.refinement.cornerDof m.space m.dim s w) =
        (Pi.single v 1 : List Nat → K) w := by
  intro w hw
  by_cases h : w = v
  · rw [h, Pi.single_eq_same, Pi.single_eq_same]
  · rw [Pi.single_eq_of_ne h, Pi.single_eq_of_ne fun heq => h (m.cornerDof_inj hs hw hv heq)]

/-- The energy of two nodes on a sub-cell is the coupling of their corners, if it has both. -/
theorem energy_single {m : BoxMesh K} {terms : MetricArray K} {s : Nat}
    {metric : Matrix (Fin m.dim.value) (Fin m.dim.value) K}
    (hmetric : ∀ q < m.dim.vertices,
      Kernel.metric m.dim (terms.terms (m.embedding s).parent) (m.embedding s).offset q = metric)
    (hs : s < m.cells.prod) {i j : Nat} {c : K}
    (hc : ∀ v ∈ Shape.vertices m.dim, ∀ w ∈ Shape.vertices m.dim,
      m.refinement.cornerDof m.space m.dim s v = i → m.refinement.cornerDof m.space m.dim s w = j →
        Shape.coupling metric (Lattice.along v) (Lattice.along w) = c) :
    m.refinement.energy m.space m.dim terms (Pi.single i 1) (Pi.single j 1) s =
      if i ∈ m.subcellNodes s ∧ j ∈ m.subcellNodes s then c else 0 := by
  have hnone {n : Nat} (hn : n ∉ m.subcellNodes s) : ∀ v ∈ Shape.vertices m.dim,
      (Pi.single n 1 : Nat → K) (m.refinement.cornerDof m.space m.dim s v) = 0 := fun v hv =>
    Pi.single_eq_of_ne (fun heq => hn ((mem_subcellNodes hs).mpr ⟨v, hv, heq⟩)) 1
  unfold Refinement.energy
  by_cases hi : i ∈ m.subcellNodes s
  · by_cases hj : j ∈ m.subcellNodes s
    · obtain ⟨v, hv, rfl⟩ := (mem_subcellNodes hs).mp hi
      obtain ⟨w, hw, rfl⟩ := (mem_subcellNodes hs).mp hj
      rw [if_pos ⟨hi, hj⟩, ← hc v hv w hw rfl rfl,
        Kernel.energy_congr (m.single_cornerDof hs hv) (m.single_cornerDof hs hw)]
      exact Kernel.energy_corners hmetric hv hw
    · rw [if_neg fun hboth => hj hboth.2, Kernel.energy_congr (fun _ _ => rfl) (hnone hj),
        Kernel.energy_const]
  · rw [if_neg fun hboth => hi hboth.1, Kernel.energy_comm,
      Kernel.energy_congr (fun _ _ => rfl) (hnone hi), Kernel.energy_const]

section Assembled

variable {m : BoxMesh K} {options : Options K} {source : JacobianSource K} {terms : MetricArray K}
  {a : Csr K} (h : Assembly.Assembled m.refinement m.space [] options m.dim source terms a)

include h

/-- Two nodes are coupled once for each sub-cell that contains them both, when their corners have
one coupling in all of these. -/
theorem value_eq_card_mul {metric : Matrix (Fin m.dim.value) (Fin m.dim.value) K}
    (hmetric : ∀ s < m.cells.prod, ∀ q < m.dim.vertices,
      Kernel.metric m.dim (terms.terms (m.embedding s).parent) (m.embedding s).offset q = metric)
    {i j : Nat} (hi : i < m.lattice.prod) (hj : j < m.lattice.prod) {c : K}
    (hc : ∀ s < m.cells.prod, ∀ v ∈ Shape.vertices m.dim, ∀ w ∈ Shape.vertices m.dim,
      m.refinement.cornerDof m.space m.dim s v = i → m.refinement.cornerDof m.space m.dim s w = j →
        Shape.coupling metric (Lattice.along v) (Lattice.along w) = c) :
    a.value i j = #(m.sharedCells i j) * c := by
  have hsize : m.lattice.prod = m.positions.size := m.size_positions.symm
  have hrows : i < a.nrows := by
    rw [h.nrows_eq]
    exact hi.trans_eq hsize
  have hcols : j < a.ncols := by
    rw [h.ncols_eq]
    exact hj.trans_eq hsize
  have henergy := fun s (hs : s ∈ range m.refinement.subcells) =>
    energy_single (hmetric s (mem_range.mp hs)) (mem_range.mp hs) (hc s (mem_range.mp hs))
  rw [← a.form_single hrows hcols, h.form_eq, sum_congr rfl henergy, ← sum_filter, sum_const,
    nsmul_eq_mul]
  rfl

theorem entry?_of_near (hpos : ∀ n ∈ m.elements, 0 < n) {i j : Nat} (hi : i < m.lattice.prod)
    (hj : j < m.lattice.prod)
    (hnear : Lattice.near (Lattice.unflatten i m.lattice) (Lattice.unflatten j m.lattice)) :
    a.entry? i j = some (a.value i j) := by
  have hmem : j ∈ a.columns i :=
    h.mem_columns_iff.mpr ((m.exists_subcell_iff_near hpos).mpr ⟨hi, hj, hnear⟩)
  rw [a.entry?_eq_value, if_pos hmem]

/-- Without essential degrees of freedom the rows sum to zero, so that the diagonal follows from
the other entries. -/
theorem value_self {i : Nat} (hi : i < m.lattice.prod) :
    a.value i i = -∑ j ∈ (range m.lattice.prod).erase i, a.value i j := by
  have hsize : m.space.numDofs = m.lattice.prod := m.size_positions
  have hrow := a.form_single_left (h.nrows_eq ▸ hsize ▸ hi) fun _ => 1
  rw [h.ncols_eq, hsize, h.form_eq] at hrow
  have hzero : ∑ s ∈ range m.refinement.subcells, m.refinement.energy m.space m.dim terms
      (Pi.single i 1) (fun _ => 1) s = 0 := sum_eq_zero fun s _ => Kernel.energy_const _ _ _ _ _
  rw [hzero, ← add_sum_erase _ _ (mem_range.mpr hi)] at hrow
  simp only [mul_one] at hrow
  exact eq_neg_of_add_eq_zero_left hrow.symm

section Stencil

variable {metric : Matrix (Fin m.dim.value) (Fin m.dim.value) K}
  (hmetric : ∀ s < m.cells.prod, ∀ q < m.dim.vertices,
    Kernel.metric m.dim (terms.terms (m.embedding s).parent) (m.embedding s).offset q = metric)
  (hsymm : metric.IsSymm) {i j : Nat} (hi : i < m.lattice.prod) (hj : j < m.lattice.prod)

include hmetric hi hj

/-- Nodes that differ along more than two axes. -/
theorem value_of_moved_three (hmoved : 2 < #(Shape.moved (m.gridPoint i) (m.gridPoint j))) :
    a.value i j = 0 := by
  rw [value_eq_card_mul h hmetric hi hj (c := 0), mul_zero]
  rintro s hs v hv w hw rfl rfl
  rw [moved_gridPoint m hs hv hw] at hmoved
  exact Shape.coupling_of_moved_three hmoved

include hsymm

/-- Neighbours along one axis. -/
theorem value_of_moved_one {p : Fin m.dim.value}
    (hmoved : Shape.moved (m.gridPoint i) (m.gridPoint j) = {p}) :
    a.value i j = -2 * #(m.sharedCells i j) * metric p p := by
  rw [value_eq_card_mul h hmetric hi hj (c := -2 * metric p p)]
  · ring
  · rintro s hs v hv w hw rfl rfl
    rw [moved_gridPoint m hs hv hw] at hmoved
    exact Shape.coupling_of_moved_one hsymm (along_lt hv) (along_lt hw) hmoved

/-- Neighbours across a face. -/
theorem value_of_moved_two {p q : Fin m.dim.value} (hpq : p ≠ q)
    (hmoved : Shape.moved (m.gridPoint i) (m.gridPoint j) = {p, q}) :
    a.value i j = -2 * #(m.sharedCells i j) * ((m.gridPoint j p : K) - m.gridPoint i p) *
      ((m.gridPoint j q : K) - m.gridPoint i q) * metric p q := by
  rw [value_eq_card_mul h hmetric hi hj (c := -2 * ((m.gridPoint j p : K) - m.gridPoint i p) *
    ((m.gridPoint j q : K) - m.gridPoint i q) * metric p q)]
  · ring
  · rintro s hs v hv w hw rfl rfl
    rw [moved_gridPoint m hs hv hw] at hmoved
    have hdifference (axis : Fin m.dim.value) :
        (m.gridPoint (m.refinement.cornerDof m.space m.dim s w) axis : K) -
          m.gridPoint (m.refinement.cornerDof m.space m.dim s v) axis =
        (Lattice.along w axis : K) - Lattice.along v axis := by
      rw [m.gridPoint_cornerDof hs hv, m.gridPoint_cornerDof hs hw]
      push_cast
      ring
    rw [hdifference, hdifference]
    exact Shape.coupling_of_moved_two hsymm (along_lt hv) (along_lt hw) hpq hmoved

end Stencil

end Assembled

/-! ### Affine meshes -/

section Affine

variable {α : Type}

theorem embedding_zero (m : BoxMesh α) : m.embedding 0 = ⟨0, 0⟩ := by
  have hcell : m.cellCoordinates 0 = m.cells.map fun _ => 0 := Lattice.unflatten_zero m.cells
  have hdiv : (m.cells.map fun _ => 0).map (· / m.order) = m.cells.map fun _ => 0 := by
    rw [List.map_map]
    exact List.map_congr_left fun _ _ => Nat.zero_div m.order
  have hmod : (m.cells.map fun _ => 0).map (· % m.order) = m.cells.map fun _ => 0 := by
    rw [List.map_map]
    exact List.map_congr_left fun _ _ => Nat.zero_mod m.order
  rw [embedding, hcell, hdiv, hmod, Lattice.flatten_origin, Lattice.flatten_origin]

theorem configured (m : BoxMesh α) (options : Options α) (hbasis : m.basis = .nodalTensor)
    (horder : m.order ≤ maxOrder) (hfactors : m.factors = none) :
    Assembly.Configured m.refinement m.space options m.dim where
  checks :=
    { basis_eq := hbasis
      space_dim := rfl
      refinement_dim := rfl
      order_pos := m.order_pos
      order_le := horder
      ordering_perm := m.aligned.ordering_perm }
  subcells_eq := m.covers.subcells_eq
  covers := m.covers
  factors_fit _ _ f hf := by cases hfactors.symm.trans hf

theorem storable_of_le (m : BoxMesh α) (options : Options α)
    (hcells : 48 * m.cells.prod ≤ Size.maxEntries) (hnodes : m.lattice.prod + 1 ≤ Size.maxEntries) :
    Assembly.Storable m.refinement m.space options m.dim := by
  have hsubcells : m.space.elements * m.space.order ^ m.dim.value = m.cells.prod :=
    m.covers.subcells_eq.symm
  have hterms : m.dim.components * m.dim.vertices ≤ 48 := by cases m.dim <;> decide
  have hnumDofs : m.space.numDofs = m.lattice.prod := m.size_positions
  refine ⟨?_, fun _ _ _ => ?_, hnumDofs ▸ hnodes⟩
  · rw [hsubcells]
    exact (Nat.mul_le_mul_right _ hterms).trans hcells
  · rw [hsubcells]
    exact (Nat.mul_le_mul_right _ (by decide)).trans hcells

theorem cells_prod_pos (m : BoxMesh α) (hpos : ∀ n ∈ m.elements, 0 < n) : 0 < m.cells.prod :=
  List.prod_pos (m.cells_pos hpos)

theorem isSymm_affineMetric (d : Nat) (map : List (List K)) (order : Nat) :
    (affineMetric d map order).IsSymm := by
  rw [affineMetric]
  exact (Matrix.isSymm_transpose_mul_self _).inv.smul _

end Affine

section Determinant

variable {m : BoxMesh K} {map : List (List K)} {translation : List K} {options : Options K}
  (hmesh : m.Unperturbed map translation) (hfactors : m.factors = none)
  (hverify : options.verify = none)
  (hconfigured : Assembly.Configured m.refinement m.space options m.dim)
  (hstorable : Assembly.Storable m.refinement m.space options m.dim)

include hmesh hfactors hverify hconfigured hstorable

/-- A map that preserves orientation leads to a matrix. -/
theorem exists_assemble_of_det_pos (schedule : Schedule)
    (hdet : 0 < (mapMatrix m.dim.value map).det) :
    ∃ a, (Assembly.assemble schedule m.refinement m.space [] options).result = .ok a := by
  refine Assembly.exists_of_accepted
    (Assembly.faultless_assemble schedule [] m.complete fun dim hdim => ?_) hconfigured
    (fun s hs => regular_of_unperturbed hmesh hfactors hverify hdet hs) fun e he => m.accepts he
  obtain rfl : m.dim = dim := Dimension.eq_of_value_eq hdim
  exact hstorable

/-- Any other map is reported for the first sub-cell. -/
theorem assemble_of_not_det_pos (schedule : Schedule) (hpos : ∀ n ∈ m.elements, 0 < n)
    (hdet : ¬0 < (mapMatrix m.dim.value map).det) :
    (Assembly.assemble schedule m.refinement m.space [] options).result = .error (.error
      (.nonPositiveDeterminant 0 0 0
        ((mapMatrix m.dim.value map).det / (m.order : K) ^ m.dim.value))) := by
  have hfirst : m.refinement.embedding 0 = ⟨0, 0⟩ := m.embedding_zero
  refine Assembly.assemble_of_first hconfigured m.complete hstorable schedule []
    (m.cells_prod_pos hpos) (fun t _ hlt => ?_) fun source hsource => ?_
  · -- nothing comes before the first slot
    rw [hfirst] at hlt
    cases hlt
  · rw [hfirst]
    exact subcellTerms_of_unperturbed hmesh hfactors hverify hdet hsource
      (m.cells_prod_pos hpos) 0

end Determinant

/-- A mesh whose nodes are the images of the points of a lattice under an affine map has a matrix
exactly when the determinant of the map is positive; otherwise the first quadrature point of the
first sub-cell is reported, with the determinant of the map divided by a power of the order. The
matrix couples two nodes by one term of the metric for each sub-cell that contains both, according
to the axes along which they differ, and its rows sum to zero. -/
theorem assemble_affine (schedule : Schedule) {elements : List Nat} {order : Nat}
    {map : List (List K)} {translation : List K} {m : BoxMesh K}
    (hm : create elements order map translation = .ok m) (hpos : ∀ n ∈ elements, 0 < n)
    (horder : order ≤ maxOrder) (options : Options K) (hverify : options.verify = none) :
    let result := (Assembly.assemble schedule m.refinement m.space [] options).result
    let det := (mapMatrix m.dim.value map).det
    let metric := affineMetric m.dim.value map order
    (Assembly.Storable m.refinement m.space options m.dim →
      ((∃ a, result = .ok a) ↔ 0 < det) ∧
      (¬0 < det → result = .error (.error
        (.nonPositiveDeterminant 0 0 0 (det / (order : K) ^ m.dim.value))))) ∧
    ∀ a, result = .ok a → 0 < det ∧
      (∀ i < m.lattice.prod, ∀ j < m.lattice.prod,
        Lattice.near (Lattice.unflatten i m.lattice) (Lattice.unflatten j m.lattice) →
        let x := m.gridPoint i
        let y := m.gridPoint j
        let n : K := #(m.sharedCells i j)
        (∀ p, Shape.moved x y = {p} → a.entry? i j = some (-2 * n * metric p p)) ∧
        (∀ p q, p ≠ q → Shape.moved x y = {p, q} →
          a.entry? i j = some (-2 * n * ((y p : K) - x p) * ((y q : K) - x q) * metric p q)) ∧
        (#(Shape.moved x y) = 3 → a.entry? i j = some 0)) ∧
      ∀ i < m.lattice.prod,
        a.entry? i i = some (-∑ j ∈ (range m.lattice.prod).erase i, a.value i j) := by
  obtain ⟨rfl, rfl, hbasis, hfactors, hmesh⟩ := create_spec hm
  intro result det metric
  have hconfigured := m.configured options hbasis horder hfactors
  refine ⟨fun hstorable => ?_, fun a ha => ?_⟩
  · have hpositive := exists_assemble_of_det_pos hmesh hfactors hverify hconfigured hstorable schedule
    have hnegative := assemble_of_not_det_pos hmesh hfactors hverify hconfigured hstorable schedule
      hpos
    refine ⟨⟨fun ⟨a, ha⟩ => ?_, hpositive⟩, hnegative⟩
    by_contra hdet
    cases ha.symm.trans (hnegative hdet)
  · obtain ⟨dim, source, terms, h⟩ := Assembly.assemble_spec ha
    obtain rfl : m.dim = dim := Dimension.eq_of_value_eq h.checks.space_dim
    have hevaluated {s : Nat} (hs : s < m.cells.prod) {q : Nat} (hq : q < m.dim.vertices) :=
      metric_of_unperturbed hmesh hs (.inr (.inr (.inl hfactors))) h.source_eq h.evaluated hq
    have hmetric : ∀ s < m.cells.prod, ∀ q < m.dim.vertices,
        Kernel.metric m.dim (terms.terms (m.embedding s).parent) (m.embedding s).offset q =
          metric := fun s hs q hq => (hevaluated hs hq).2
    have hsymm := isSymm_affineMetric m.dim.value map m.order
    refine ⟨(hevaluated (m.cells_prod_pos hpos) (Nat.two_pow_pos _)).1, fun i hi j hj hnear => ?_,
      fun i hi => ?_⟩
    · rw [entry?_of_near h hpos hi hj hnear]
      refine ⟨fun p hmoved => ?_, fun p q hpq hmoved => ?_, fun hmoved => ?_⟩
      · rw [value_of_moved_one h hmetric hsymm hi hj hmoved]
      · rw [value_of_moved_two h hmetric hsymm hi hj hpq hmoved]
      · rw [value_of_moved_three h hmetric hi hj (by omega)]
    · rw [entry?_of_near h hpos hi hi (Lattice.near_self _), value_self h hi]

/-- Two elements of order two in space, sheared along the first axis, have a matrix in which the
ends of the diagonals of sub-cells are not coupled; a reflected mesh is reported. -/
theorem assemble_affine_sheared :
    (∃ m : BoxMesh ℚ, create [2, 1, 1] 2 [[1, 1 / 2, 0], [0, 1, 0], [0, 0, 1]] [3] = .ok m ∧
      ∃ a, (Assembly.assemble .inOrder m.refinement m.space [] Options.standard).result = .ok a ∧
        a.entry? 0 21 = some 0) ∧
    ∃ m : BoxMesh ℚ, create [1, 1] 2 [[0, 1], [1, 0]] [] = .ok m ∧
      (Assembly.assemble .inOrder m.refinement m.space [] Options.standard).result =
        .error (.error (.nonPositiveDeterminant 0 0 0 (-1 / 4))) := by
  have hshear : (create [2, 1, 1] 2 [[1, 1 / 2, 0], [0, 1, 0], [0, 0, 1]] [3] :
      Except Rejection (BoxMesh ℚ)).isOk = true := by decide +kernel
  have hreflection : (create [1, 1] 2 [[0, 1], [1, 0]] [] :
      Except Rejection (BoxMesh ℚ)).isOk = true := by decide +kernel
  obtain ⟨m, hm⟩ := exists_of_isOk hshear
  obtain ⟨m', hm'⟩ := exists_of_isOk hreflection
  refine ⟨⟨m, hm, ?_⟩, m', hm', ?_⟩
  · obtain ⟨helements, horder, -⟩ := create_spec hm
    have hdim : m.dim = .three :=
      Dimension.eq_of_value_eq (by rw [← m.length_elements, helements]; rfl)
    have hlattice : m.lattice = [5, 3, 3] := by rw [lattice, helements, horder]; rfl
    have hstorable := m.storable_of_le Options.standard
      (by rw [cells, helements, horder]; decide) (by rw [hlattice]; decide)
    obtain ⟨hresult, hentries⟩ := assemble_affine .inOrder hm (by decide) (by decide)
      Options.standard rfl
    have hdet : 0 < (mapMatrix m.dim.value
        ([[1, 1 / 2, 0], [0, 1, 0], [0, 0, 1]] : List (List ℚ))).det := by
      rw [hdim]
      change 0 < (mapMatrix 3 _).det
      simp [Matrix.det_fin_three, mapMatrix]
    have hmoved : #(Shape.moved (m.gridPoint 0) (m.gridPoint 21)) = 3 := by
      have hall : Shape.moved (m.gridPoint 0) (m.gridPoint 21) = univ := by
        ext axis
        have haxis : axis.val < 3 := axis.isLt.trans_eq (congrArg Dimension.value hdim)
        simp only [Shape.mem_moved, gridPoint, Lattice.along, hlattice, mem_univ, iff_true]
        interval_cases axis.val <;> decide
      rw [hall, card_univ, Fintype.card_fin, hdim]
      rfl
    obtain ⟨a, ha⟩ := (hresult hstorable).1.mpr hdet
    have hcoupling := (hentries a ha).2.1 0 (by rw [hlattice]; decide) 21
      (by rw [hlattice]; decide) (by rw [hlattice]; decide)
    exact ⟨a, ha, hcoupling.2.2 hmoved⟩
  · obtain ⟨helements, horder, -⟩ := create_spec hm'
    have hdim : m'.dim = .two :=
      Dimension.eq_of_value_eq (by rw [← m'.length_elements, helements]; rfl)
    have hlattice : m'.lattice = [3, 3] := by rw [lattice, helements, horder]; rfl
    have hstorable := m'.storable_of_le Options.standard
      (by rw [cells, helements, horder]; decide) (by rw [hlattice]; decide)
    obtain ⟨hresult, -⟩ := assemble_affine .inOrder hm' (by decide) (by decide)
      Options.standard rfl
    have hdet : (mapMatrix m'.dim.value ([[0, 1], [1, 0]] : List (List ℚ))).det = -1 := by
      rw [hdim]
      change (mapMatrix 2 _).det = -1
      simp [Matrix.det_fin_two, mapMatrix]
    have hreport := (hresult hstorable).2 (by rw [hdet]; decide)
    rw [hdet, hdim] at hreport
    rw [hreport]
    norm_num [Dimension.value]

end BoxMesh

end LowOrderRefinement
