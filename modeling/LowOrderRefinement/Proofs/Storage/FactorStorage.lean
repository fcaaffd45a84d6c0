import LowOrderRefinement.Proofs.Storage.Addressing
import LowOrderRefinement.Proofs.Cell.ClosedForms

/-! Jacobians in storage. Each entry of each Jacobian has a place of its own and no place is
left over, so that factors are determined by what is read from them and can be made again
from their entries. The entries of computed Jacobians are products of vertex coordinates
and gradients, and the first sub-cell of another geometry ends the computation. -/

namespace LowOrderRefinement

variable {α : Type}

/-! ### Vertex coordinates times gradients -/

/-- The derivatives of the shape functions along an axis at a quadrature point. -/
def Shape.gradientRow [Scalar α] : Dimension → Nat → Nat → List α
  | .two, q, axis => (Quadrature.square.map fun (_, ξ) =>
      (Quadrilateral.gradients ξ).map fun g => g.toList.getD axis 0).getD q []
  | .three, q, axis => (Quadrature.cube.map fun (_, ξ) =>
      (Hexahedron.gradients ξ).map fun g => g.toList.getD axis 0).getD q []

namespace Refinement

variable [Scalar α]

def vertexRow (r : Refinement α) (dim : Dimension) (s axis : Nat) : List α :=
  (List.range dim.vertices).map fun vertex => (r.vertices s).getD (dim.value * vertex + axis) 0

/-- The product of the vertex coordinates of a sub-cell and the transposed gradients of the shape
functions at a quadrature point, row by row. -/
def jacobianProduct (r : Refinement α) (dim : Dimension) (s q : Nat) : List (List α) :=
  (List.range dim.value).map fun row => (List.range dim.value).map fun column =>
    Scalar.dot (r.vertexRow dim s row) (Shape.gradientRow dim q column)

theorem getElem?_jacobianProduct (r : Refinement α) (dim : Dimension) (s : Nat) {q : Nat}
    (hq : q < dim.vertices) :
    ((List.range dim.vertices).map (r.jacobianProduct dim s))[q]? =
      some (r.jacobianProduct dim s q) := by
  rw [List.getElem?_map, List.getElem?_range hq, Option.map_some]

theorem getD_jacobianProduct (r : Refinement α) (dim : Dimension) (s q : Nat) {row column : Nat}
    (hrow : row < dim.value) (hcolumn : column < dim.value) :
    ((r.jacobianProduct dim s q).getD row []).getD column 0 =
      Scalar.dot (r.vertexRow dim s row) (Shape.gradientRow dim q column) := by
  simp [jacobianProduct, List.getD_eq_getElem?_getD, hrow, hcolumn]

/-- A sub-cell of the geometry of the dimension comes with the coordinates of all its vertices. -/
def Furnished (r : Refinement α) (dim : Dimension) : Prop :=
  ∀ s < r.subcells, (r.geometry s).fits dim → (r.vertices s).length = dim.value * dim.vertices

variable {r : Refinement α} {dim : Dimension} {s : Nat}

theorem jacobianRows_eq (h : (r.vertices s).length = dim.value * dim.vertices) :
    r.jacobianRows dim s = .ok ((List.range dim.vertices).map (r.jacobianProduct dim s)) := by
  cases dim with
  | two =>
    obtain ⟨cell, hcell⟩ := Quadrilateral.decodes.exists_encode h
    rw [jacobianRows, quadrilateral, ← hcell, Quadrilateral.decodes.decode_encode, ok_bind]
    unfold jacobianProduct vertexRow
    rw [← hcell]
    rfl
  | three =>
    obtain ⟨cell, hcell⟩ := Hexahedron.decodes.exists_encode h
    rw [jacobianRows, hexahedron, ← hcell, Hexahedron.decodes.decode_encode, ok_bind]
    unfold jacobianProduct vertexRow
    rw [← hcell]
    rfl

/-! ### The first sub-cell that is refused -/

theorem exists_subcellEntries (hfits : (r.geometry s).fits dim)
    (hlength : (r.vertices s).length = dim.value * dim.vertices) :
    ∃ entries, r.subcellEntries dim s = .ok entries := by
  have hcheck : r.checkGeometry dim s = .ok () := checkGeometry_eq_ok.mpr hfits
  rw [subcellEntries, hcheck, ok_bind, jacobianRows_eq hlength, lift_ok, ok_bind]
  exact ⟨_, rfl⟩

theorem subcellEntries_of_not_fits (hfits : (r.geometry s).fits dim = false) :
    r.subcellEntries dim s = .error (.error (.unsupportedGeometry s)) := by
  rw [subcellEntries, checkGeometry, hfits]
  rfl

/-- Sub-cell by sub-cell, the Jacobians are refused at the first sub-cell of another geometry. -/
theorem mapM_subcellEntries_eq_error (hcomplete : r.Furnished dim) {failure : Failure α} :
    (List.range r.subcells).mapM (r.subcellEntries dim) = .error failure ↔
      ∃ s, IsLeast {s | s < r.subcells ∧ (r.geometry s).fits dim = false} s ∧
        failure = .error (.unsupportedGeometry s) := by
  rw [mapM_range_eq_error]
  constructor
  · rintro ⟨s, hs, hfailure, hbefore⟩
    have hfits : (r.geometry s).fits dim = false := by
      by_contra hne
      rw [Bool.not_eq_false] at hne
      obtain ⟨entries, hentries⟩ := exists_subcellEntries hne (hcomplete s hs hne)
      cases hfailure.symm.trans hentries
    rw [subcellEntries_of_not_fits hfits] at hfailure
    refine ⟨s, ⟨⟨hs, hfits⟩, fun t ht => ?_⟩, (Except.error.inj hfailure).symm⟩
    by_contra hlt
    obtain ⟨entries, hentries⟩ := hbefore t (Nat.lt_of_not_le hlt)
    cases (subcellEntries_of_not_fits ht.2).symm.trans hentries
  · rintro ⟨s, ⟨⟨hs, hfits⟩, hleast⟩, rfl⟩
    refine ⟨s, hs, subcellEntries_of_not_fits hfits, fun t ht => ?_⟩
    have htfits : (r.geometry t).fits dim = true := by
      by_contra hne
      exact (Nat.not_le_of_lt ht) (hleast ⟨ht.trans hs, Bool.eq_false_iff.mpr hne⟩)
    exact exists_subcellEntries htfits (hcomplete t (ht.trans hs) htfits)

/-- The computation of factors that can be stored fails for a geometry only. -/
theorem computeFactors_eq_error (hr : r.dim = dim.value) (hcomplete : r.Furnished dim)
    (h : dim.vertices * dim.value * dim.value * r.subcells ≤ Size.maxEntries)
    {failure : Failure α} :
    r.computeFactors = .error failure ↔
      ∃ s, IsLeast {s | s < r.subcells ∧ (r.geometry s).fits dim = false} s ∧
        failure = .error (.unsupportedGeometry s) := by
  rw [Assembly.computeFactors_of_le hr h, bind_eq_error, ← mapM_subcellEntries_eq_error hcomplete]
  refine ⟨?_, Or.inl⟩
  rintro (hfailure | ⟨cells, hcells, hfailure⟩)
  · exact hfailure
  · obtain ⟨f, hf⟩ := Assembly.exists_ofEntries_computed hr
      (dim.productFits_factors (Size.lt_limit_of_le h)) hcells
    cases hf.symm.trans hfailure

theorem computeFactors_of_lt (hr : r.dim = dim.value)
    (h : Size.maxEntries < dim.vertices * dim.value * dim.value * r.subcells) :
    ∃ fault, r.computeFactors = .error (.fault fault) := by
  have hdim : (Outcome.dimension r.dim : Outcome α Dimension) = .ok dim := dimension_eq_ok.mpr hr
  have hreserve : Size.reserve [dim.vertices, dim.value, dim.value, r.subcells].prod =
      .error .outOfStorage := by
    rw [Size.reserve, require, dim.prod_factors, decide_eq_false (Nat.not_le_of_lt h)]
    rfl
  rw [computeFactors, hdim, ok_bind]
  cases hlayout : Layout.firstIndexFastest [dim.vertices, dim.value, dim.value, r.subcells] with
  | error fault => exact ⟨fault, rfl⟩
  | ok layout =>
    have hshape := Layout.firstIndexFastest_eq_ok.mp hlayout
    refine ⟨.outOfStorage, ?_⟩
    rw [lift_ok, ok_bind, layout.length_eq, hshape, lift_ok, ok_bind, hreserve]
    rfl

end Refinement

/-! ### Places of entries -/

namespace GeometricFactors

def rowsAt (f : GeometricFactors α) (s q : Nat) : Checked (List (List α)) :=
  match f.dim with
  | .two => do return (← f.planar s q).rows
  | .three => do return (← f.solid s q).rows

/-- The place of an entry in storage, the point fastest and then the row and the column. -/
def place (dim : Dimension) (s q row column : Nat) : Nat :=
  q + dim.vertices * (row + dim.value * (column + dim.value * s))

/-- An array lists the Jacobians of some factors when each entry of each of them is at its place. -/
def ListedBy (f : GeometricFactors α) (flat : Array α) : Prop :=
  ∀ s < f.subcells, ∀ q < f.dim.vertices, ∃ x : Nat → Nat → α,
    f.rowsAt s q =
      .ok ((List.range f.dim.value).map fun row => (List.range f.dim.value).map (x row)) ∧
    ∀ row < f.dim.value, ∀ column < f.dim.value,
      flat[place f.dim s q row column]? = some (x row column)

section Places

variable (f : GeometricFactors α) {s q row column : Nat}

theorem size_eq : f.jacobians.size = f.dim.vertices * f.dim.value * f.dim.value * f.subcells := by
  rw [f.size_jacobians, f.shape_layout, f.dim.prod_factors]

theorem inBox_iff : Lattice.inBox [q, row, column, s] f.layout.shape ↔
    q < f.dim.vertices ∧ row < f.dim.value ∧ column < f.dim.value ∧ s < f.subcells := by
  simp [f.shape_layout, Lattice.inBox]

theorem flatten_eq_place :
    Lattice.flatten [q, row, column, s] f.layout.shape = place f.dim s q row column := by
  simp only [f.shape_layout, Lattice.flatten, place]
  ring

theorem exists_place {k : Nat} (hk : k < f.jacobians.size) :
    ∃ s < f.subcells, ∃ q < f.dim.vertices, ∃ row < f.dim.value, ∃ column < f.dim.value,
      place f.dim s q row column = k := by
  rw [f.size_jacobians] at hk
  obtain ⟨index, hbox, hplace⟩ := (Lattice.bijOn_flatten f.layout.shape).surjOn hk
  have hlength := Lattice.length_eq_of_inBox hbox
  rw [f.shape_layout] at hlength
  obtain ⟨q, row, column, s, rfl⟩ := List.length_eq_four.mp hlength
  obtain ⟨hq, hrow, hcolumn, hs⟩ := f.inBox_iff.mp hbox
  exact ⟨s, hs, q, hq, row, hrow, column, hcolumn, f.flatten_eq_place ▸ hplace⟩

theorem entry_eq_ok (hs : s < f.subcells) (hq : q < f.dim.vertices) (hrow : row < f.dim.value)
    (hcolumn : column < f.dim.value) {x : α} :
    f.entry s q row column = .ok x ↔ f.jacobians[place f.dim s q row column]? = some x := by
  have hbox := f.inBox_iff.mpr ⟨hq, hrow, hcolumn, hs⟩
  rw [entry, f.layout.offset_eq_ok.mpr ⟨hbox, f.flatten_eq_place⟩, ok_bind, entryAt_eq_ok]

theorem rowsAt_of_entries {x : Nat → Nat → α}
    (h : ∀ row < f.dim.value, ∀ column < f.dim.value,
      f.entry s q row column = .ok (x row column)) :
    f.rowsAt s q =
      .ok ((List.range f.dim.value).map fun row => (List.range f.dim.value).map (x row)) := by
  unfold rowsAt
  cases hdim : f.dim with
  | two =>
    rw [hdim] at h
    simp only [planar, hdim, decide_true, require, if_true, ok_bind,
      h 0 (by decide) 0 (by decide), h 0 (by decide) 1 (by decide),
      h 1 (by decide) 0 (by decide), h 1 (by decide) 1 (by decide)]
    rfl
  | three =>
    rw [hdim] at h
    simp only [solid, hdim, decide_true, require, if_true, ok_bind,
      h 0 (by decide) 0 (by decide), h 0 (by decide) 1 (by decide), h 0 (by decide) 2 (by decide),
      h 1 (by decide) 0 (by decide), h 1 (by decide) 1 (by decide), h 1 (by decide) 2 (by decide),
      h 2 (by decide) 0 (by decide), h 2 (by decide) 1 (by decide), h 2 (by decide) 2 (by decide)]
    rfl

theorem listedBy_jacobians [Zero α] : f.ListedBy f.jacobians := by
  intro s hs q hq
  have hentry (row column : Nat) (hrow : row < f.dim.value) (hcolumn : column < f.dim.value) :
      f.entry s q row column = .ok (f.jacobians[place f.dim s q row column]?.getD 0) := by
    obtain ⟨x, hx⟩ := f.exists_entry hs hq hrow hcolumn
    rw [hx, (f.entry_eq_ok hs hq hrow hcolumn).mp hx, Option.getD_some]
  refine ⟨_, f.rowsAt_of_entries fun row hrow column hcolumn => hentry row column hrow hcolumn, ?_⟩
  intro row hrow column hcolumn
  exact (f.entry_eq_ok hs hq hrow hcolumn).mp (hentry row column hrow hcolumn)

theorem eq_of_listedBy [Zero α] {flat : Array α} (hsize : flat.size = f.jacobians.size)
    (h : f.ListedBy flat) : flat = f.jacobians := by
  refine Array.ext_getElem? fun k => ?_
  by_cases hk : k < f.jacobians.size
  · obtain ⟨s, hs, q, hq, row, hrow, column, hcolumn, rfl⟩ := f.exists_place hk
    -- both arrays list the one Jacobian that is read at this sub-cell and point
    obtain ⟨x, hrows, hx⟩ := h s hs q hq
    obtain ⟨y, hrows', hy⟩ := f.listedBy_jacobians s hs q hq
    have hsame := Except.ok.inj (hrows.symm.trans hrows')
    have hrowSame := List.map_inj_left.mp hsame row (List.mem_range.mpr hrow)
    have hentrySame := List.map_inj_left.mp hrowSame column (List.mem_range.mpr hcolumn)
    rw [hx row hrow column hcolumn, hy row hrow column hcolumn, hentrySame]
  · rw [Array.getElem?_eq_none (Nat.le_of_not_lt hk),
      Array.getElem?_eq_none (hsize ▸ Nat.le_of_not_lt hk)]

/-- Factors are made again from their entries. -/
theorem ofEntries_jacobians : ofEntries f.dim.value f.subcells f.jacobians = .ok f := by
  obtain ⟨dim, subcells, ⟨shape, fits⟩, jacobians, hshape, hsize⟩ := f
  dsimp only at hshape hsize
  subst hshape
  have hdim : (Outcome.dimension dim.value : Outcome α Dimension) = .ok dim :=
    dimension_eq_ok.mpr rfl
  rw [ofEntries, hdim, ok_bind]
  dsimp only
  rw [dif_pos fits, dif_pos hsize]
  rfl

end Places

/-- Given entries are taken as factors when they are as many as a planar or spatial refinement asks
for. -/
theorem exists_ofEntries_iff {d subcells : Nat} {flat : Array α} :
    (∃ f, ofEntries d subcells flat = .ok f) ↔
      (d = 2 ∨ d = 3) ∧ flat.size = 2 ^ d * d ^ 2 * subcells ∧
        2 ^ d * d ^ 2 * subcells < Size.limit := by
  have hcount (dim : Dimension) : dim.vertices * dim.value * dim.value * subcells =
      2 ^ dim.value * dim.value ^ 2 * subcells := by
    rw [pow_two, ← Nat.mul_assoc]
    rfl
  constructor
  · rintro ⟨f, hf⟩
    obtain ⟨rfl, rfl, rfl⟩ := ofEntries_spec hf
    have hlt := Size.prod_lt_of_fits f.layout.fits
    rw [← f.size_jacobians] at hlt
    rw [← hcount, ← f.size_eq]
    refine ⟨?_, rfl, hlt⟩
    cases f.dim
    · exact .inl rfl
    · exact .inr rfl
  · rintro ⟨hd, hsize, hlt⟩
    obtain ⟨dim, rfl⟩ : ∃ dim : Dimension, d = dim.value := by
      rcases hd with rfl | rfl
      · exact ⟨.two, rfl⟩
      · exact ⟨.three, rfl⟩
    rw [← hcount] at hsize hlt
    have hdim : (Outcome.dimension dim.value : Outcome α Dimension) = .ok dim :=
      dimension_eq_ok.mpr rfl
    rw [ofEntries, hdim, ok_bind]
    dsimp only
    rw [dif_pos (dim.productFits_factors hlt), dif_pos (dim.prod_factors subcells ▸ hsize)]
    exact ⟨_, rfl⟩

/-! ### Computed factors -/

section Computed

variable [Scalar α] {r : Refinement α} {f : GeometricFactors α}

/-- Computed factors hold the product of vertex coordinates and gradients, entry by entry. -/
theorem entry_eq_product (h : r.computeFactors = .ok f) {s q row column : Nat}
    (hs : s < r.subcells) (hlength : (r.vertices s).length = f.dim.value * f.dim.vertices)
    (hq : q < f.dim.vertices) (hrow : row < f.dim.value) (hcolumn : column < f.dim.value) :
    f.entry s q row column =
      .ok (Scalar.dot (r.vertexRow f.dim s row) (Shape.gradientRow f.dim q column)) := by
  have hpoint := r.getElem?_jacobianProduct f.dim s hq
  rw [f.entry_of_computeFactors h hs (Refinement.jacobianRows_eq hlength) hpoint hrow hcolumn,
    r.getD_jacobianProduct f.dim s q hrow hcolumn]

theorem rowsAt_eq_product (h : r.computeFactors = .ok f) {s q : Nat} (hs : s < r.subcells)
    (hlength : (r.vertices s).length = f.dim.value * f.dim.vertices) (hq : q < f.dim.vertices) :
    f.rowsAt s q = .ok (r.jacobianProduct f.dim s q) :=
  f.rowsAt_of_entries fun _ hrow _ hcolumn => entry_eq_product h hs hlength hq hrow hcolumn

end Computed

end GeometricFactors

end LowOrderRefinement
