import LowOrderRefinement.Proofs.ExactField
import LowOrderRefinement.BoxMesh.Basic
import LowOrderRefinement.Proofs.Assembly.TotalEnergy

/-! The Jacobians of sub-cells. In exact arithmetic the closed forms agree with the
products of vertex coordinates and gradients of shape functions, and computed
geometric factors hold these products at the places where they are read. So every
source of Jacobians leads to the same ones, unless stored factors are stale. -/

namespace LowOrderRefinement

variable {K : Type} [ExactField K]

/-! ### Closed forms -/

theorem Quadrilateral.jacobian_eq (cell : Quadrilateral K) (ξ : Vec2 K) :
    cell.jacobian ξ = cell.jacobianOfGradients ξ := by
  simp only [jacobian, slopeX, slopeY, jacobianOfGradients, gradients, vertices,
    Shape.squareVertices, Shape.slope, Shape.value, List.map_cons, List.map_nil, Scalar.dot,
    List.zipWith_cons_cons, List.zipWith_nil_left, Scalar.sumLeft, List.foldl_cons, List.foldl_nil,
    Mat2.mk.injEq]
  norm_num
  refine ⟨?_, ?_, ?_, ?_⟩ <;> ring

theorem Hexahedron.derivatives_eq (ξ : Vec3 K) : derivatives ξ = gradients ξ := by
  simp only [derivatives, gradients, Shape.cubeVertices, Shape.slope, Shape.value, List.map_cons,
    List.map_nil]
  norm_num
  refine ⟨?_, ?_⟩ <;> ring

theorem Hexahedron.jacobian_eq (cell : Hexahedron K) (ξ : Vec3 K) :
    cell.jacobian ξ = cell.jacobianOfGradients ξ := by
  have hentry (coordinate derivative : Vec3 K → K) :
      ((gradients ξ).zip cell.vertices).foldl
        (fun acc p => acc + derivative p.1 * coordinate p.2) 0 =
      Scalar.dot (cell.vertices.map coordinate) ((gradients ξ).map derivative) := by
    simp only [gradients, Shape.cubeVertices, vertices, List.zip_cons_cons, List.zip_nil_right,
      List.foldl_cons, List.foldl_nil, List.map_cons, List.map_nil, Scalar.dot,
      List.zipWith_cons_cons, List.zipWith_nil_left, Scalar.sumLeft]
    ring
  simp only [jacobian, jacobianOfGradients, derivatives_eq, combine, hentry]

/-! ### Computed factors -/

section Factors

variable {α : Type}

namespace GeometricFactors

theorem length_cellEntries [Zero α] (d : Nat) (jacobians : List (List (List α))) :
    (cellEntries d jacobians).length = d * (d * jacobians.length) := by
  simp [cellEntries, List.length_flatMap]

theorem getElem?_cellEntries [Zero α] {d : Nat} {jacobians : List (List (List α))}
    {point row column : Nat} {rows : List (List α)} (hpoint : jacobians[point]? = some rows)
    (hrow : row < d) (hcolumn : column < d) :
    (cellEntries d jacobians)[(column * d + row) * jacobians.length + point]? =
      some ((rows.getD row []).getD column 0) := by
  have hlt : point < jacobians.length := (List.getElem?_eq_some_iff.mp hpoint).1
  have hplace : (column * d + row) * jacobians.length + point =
      column * (d * jacobians.length) + (row * jacobians.length + point) := by ring
  have hinner : row * jacobians.length + point < d * jacobians.length :=
    Lattice.place_lt hrow hlt
  rw [cellEntries, hplace,
    getElem?_flatMap_blocks (fun _ _ => by simp [List.length_flatMap]) hinner,
    List.getElem?_range hcolumn, Option.bind_some,
    getElem?_flatMap_blocks (fun _ _ => List.length_map _) hlt, List.getElem?_range hrow,
    Option.bind_some, List.getElem?_map, hpoint, Option.map_some]

end GeometricFactors

variable [Scalar α]

theorem Refinement.length_jacobianRows {r : Refinement α} {dim : Dimension} {s : Nat}
    {rows : List (List (List α))} (h : r.jacobianRows dim s = .ok rows) :
    rows.length = dim.vertices := by
  cases dim with
  | two =>
    obtain ⟨cell, -, h⟩ := bind_eq_ok.mp h
    rw [← pure_eq_ok.mp h, List.length_map]
    rfl
  | three =>
    obtain ⟨cell, -, h⟩ := bind_eq_ok.mp h
    rw [← pure_eq_ok.mp h, List.length_map]
    rfl

/-- The entry of a Jacobian stands in the block of its sub-cell. -/
theorem GeometricFactors.getElem?_of_computeFactors {r : Refinement α} {f : GeometricFactors α}
    (h : r.computeFactors = .ok f) {s : Nat} (hs : s < r.subcells)
    {jacobians : List (List (List α))} (hjacobians : r.jacobianRows f.dim s = .ok jacobians)
    {point row column : Nat} {rows : List (List α)} (hpoint : jacobians[point]? = some rows)
    (hrow : row < f.dim.value) (hcolumn : column < f.dim.value) :
    f.jacobians[s * (f.dim.value * (f.dim.value * f.dim.vertices)) +
      ((column * f.dim.value + row) * f.dim.vertices + point)]? =
      some ((rows.getD row []).getD column 0) := by
  obtain ⟨-, -, cells, hentries, hlength, hcells⟩ := Refinement.computeFactors_spec h
  have hpoints : jacobians.length = f.dim.vertices := Refinement.length_jacobianRows hjacobians
  have hlt : point < f.dim.vertices := hpoints ▸ (List.getElem?_eq_some_iff.mp hpoint).1
  have hblocks : ∀ b ∈ cells, b.length = f.dim.value * (f.dim.value * f.dim.vertices) := by
    intro b hb
    obtain ⟨t, ht⟩ := List.mem_iff_getElem?.mp hb
    have hts : t < r.subcells := hlength ▸ (List.getElem?_eq_some_iff.mp ht).1
    obtain ⟨rows', hrows', hcell⟩ := hcells t hts
    obtain rfl := Option.some.inj (ht.symm.trans hcell)
    rw [length_cellEntries, Refinement.length_jacobianRows hrows']
  have hblock : (column * f.dim.value + row) * f.dim.vertices + point <
      f.dim.value * (f.dim.value * f.dim.vertices) := by
    rw [← Nat.mul_assoc]
    exact Lattice.place_lt (Lattice.place_lt hcolumn hrow) hlt
  obtain ⟨jacobians', hjacobians', hcell⟩ := hcells s hs
  obtain rfl : jacobians = jacobians' := Except.ok.inj (hjacobians.symm.trans hjacobians')
  rw [hentries, List.getElem?_toArray, getElem?_flatten_blocks hblocks hblock, hcell,
    Option.bind_some, ← hpoints, getElem?_cellEntries hpoint hrow hcolumn]

/-- Computed factors hold, for every sub-cell and point, the Jacobian that the vertices give. -/
theorem GeometricFactors.entry_of_computeFactors {r : Refinement α} {f : GeometricFactors α}
    (h : r.computeFactors = .ok f) {s : Nat} (hs : s < r.subcells)
    {jacobians : List (List (List α))} (hjacobians : r.jacobianRows f.dim s = .ok jacobians)
    {point row column : Nat} {rows : List (List α)} (hpoint : jacobians[point]? = some rows)
    (hrow : row < f.dim.value) (hcolumn : column < f.dim.value) :
    f.entry s point row column = .ok ((rows.getD row []).getD column 0) := by
  have hsubcells := (Refinement.computeFactors_spec h).2.1
  have hlt : point < f.dim.vertices :=
    Refinement.length_jacobianRows hjacobians ▸ (List.getElem?_eq_some_iff.mp hpoint).1
  have hbox : Lattice.inBox [point, row, column, s] f.layout.shape := by
    simp [f.shape_layout, Lattice.inBox, *]
  have hplace : Lattice.flatten [point, row, column, s] f.layout.shape =
      s * (f.dim.value * (f.dim.value * f.dim.vertices)) +
        ((column * f.dim.value + row) * f.dim.vertices + point) := by
    simp only [f.shape_layout, Lattice.flatten]
    ring
  have hget := f.getElem?_of_computeFactors h hs hjacobians hpoint hrow hcolumn
  rw [← hplace] at hget
  obtain ⟨hsize, hvalue⟩ := Array.getElem?_eq_some_iff.mp hget
  rw [entry, f.layout.offset_eq_ok.mpr ⟨hbox, rfl⟩, ok_bind, entryAt, dif_pos hsize, hvalue]

theorem GeometricFactors.planar_of_computeFactors {r : Refinement α} {f : GeometricFactors α}
    (h : r.computeFactors = .ok f) (hdim : f.dim = .two) {s : Nat} (hs : s < r.subcells)
    {cell : Quadrilateral α} (hcell : r.quadrilateral s = .ok cell) {q : Nat} {weight : α}
    {ξ : Vec2 α} (hq : Quadrature.square[q]? = some (weight, ξ)) :
    f.planar s q = .ok (cell.jacobianOfGradients ξ) := by
  have hjacobians : r.jacobianRows f.dim s =
      .ok (Quadrature.square.map fun p => (cell.jacobianOfGradients p.2).rows) := by
    rw [hdim, Refinement.jacobianRows, hcell]
    rfl
  have hpoint : (Quadrature.square.map fun p => (cell.jacobianOfGradients p.2).rows)[q]? =
      some (cell.jacobianOfGradients ξ).rows := by
    rw [List.getElem?_map, hq]
    rfl
  have hentry (row column : Nat) (hrow : row < 2) (hcolumn : column < 2) :
      f.entry s q row column =
        .ok (((cell.jacobianOfGradients ξ).rows.getD row []).getD column 0) :=
    f.entry_of_computeFactors h hs hjacobians hpoint (by rw [hdim]; exact hrow)
      (by rw [hdim]; exact hcolumn)
  simp only [planar, hdim, decide_true, require, if_true, ok_bind,
    hentry 0 0 (by decide) (by decide), hentry 0 1 (by decide) (by decide),
    hentry 1 0 (by decide) (by decide), hentry 1 1 (by decide) (by decide)]
  rfl

/-- A stored Jacobian is used as it is, once it is there and confirmed if it has to be. -/
theorem JacobianSource.planar_stored_eq_ok {factors : GeometricFactors α} {verify : Option α}
    {cell : Quadrilateral α} {s q : Nat} {ξ : Vec2 α} {j : Mat2 α} :
    (stored factors verify).planar cell s q ξ = .ok j ↔
      factors.planar s q = .ok j ∧
        ∀ tolerance, verify = some tolerance → agrees j (cell.jacobian ξ) tolerance = true := by
  simp only [planar, bind_eq_ok, lift_eq_ok]
  cases verify with
  | none => simp
  | some tolerance =>
    dsimp only
    constructor
    · rintro ⟨j', hj', h⟩
      split at h
      next hagrees =>
        obtain rfl := pure_eq_ok.mp h
        exact ⟨hj', fun t ht => Option.some.inj ht ▸ hagrees⟩
      next => cases h
    · rintro ⟨hj, hagrees⟩
      exact ⟨j, hj, by rw [if_pos (hagrees tolerance rfl)]; rfl⟩

end Factors

/-! ### Sources -/

/-- The stored factors of a mesh, where an assembly would use them, are those of its vertices. -/
def BoxMesh.Current (mesh : BoxMesh K) (options : Options K) : Prop :=
  mesh.dim = .three ∨ options.planarJacobians = .vertices ∨ mesh.factors = none ∨
    ∃ f, mesh.factors = some f ∧ mesh.refinement.computeFactors = .ok f

/-- An assembly of an up to date mesh takes the Jacobians from the vertices or from factors that
were computed from them. -/
theorem BoxMesh.source_of_current {mesh : BoxMesh K} {options : Options K}
    (hcurrent : mesh.Current options) (hdim : mesh.dim = .two) {source : JacobianSource K}
    (hsource : mesh.refinement.jacobianSource .two options = .ok source) :
    source = .vertices ∨ ∃ f verify, source = .stored f verify ∧
      mesh.refinement.computeFactors = .ok f := by
  cases hplanar : options.planarJacobians with
  | vertices =>
    simp only [Refinement.jacobianSource.eq_def, hplanar] at hsource
    exact .inl (Except.ok.inj hsource).symm
  | geometricFactors =>
    simp only [Refinement.jacobianSource.eq_def, hplanar] at hsource
    split at hsource
    next f hf =>
      simp only [bind_eq_ok, agree_eq_ok, exists_const, pure_eq_ok] at hsource
      obtain ⟨-, -, rfl⟩ := hsource
      rcases hcurrent with h | h | h | ⟨f', hf', hcompute⟩
      · rw [hdim] at h
        cases h
      · rw [hplanar] at h
        cases h
      · cases hf.symm.trans h
      · obtain rfl : f = f' := Option.some.inj (hf.symm.trans hf')
        exact .inr ⟨f, _, rfl, hcompute⟩
    next hnone =>
      obtain ⟨f, hf, hsource⟩ := bind_eq_ok.mp hsource
      exact .inr ⟨f, _, (pure_eq_ok.mp hsource).symm, hf⟩

/-- The Jacobians that an assembly of an up to date mesh uses are the products of vertex
coordinates and gradients. -/
theorem BoxMesh.planar_of_current {mesh : BoxMesh K} {options : Options K}
    (hcurrent : mesh.Current options) (hdim : mesh.dim = .two) {source : JacobianSource K}
    (hsource : mesh.refinement.jacobianSource .two options = .ok source) {s : Nat}
    (hs : s < mesh.refinement.subcells) {cell : Quadrilateral K}
    (hcell : mesh.refinement.quadrilateral s = .ok cell) {q : Nat} (hq : q < 4) {j : Mat2 K}
    (hj : source.planar cell s q (Quadrature.planarPoint q) = .ok j) :
    j = cell.jacobianOfGradients (Quadrature.planarPoint q) := by
  rcases mesh.source_of_current hcurrent hdim hsource with rfl | ⟨f, verify, rfl, hf⟩
  · cases hj
    exact cell.jacobian_eq _
  · have hfdim : f.dim = .two :=
      Refinement.dim_of_computeFactors hf (congrArg Dimension.value hdim)
    have hstored := (JacobianSource.planar_stored_eq_ok.mp hj).1
    rw [f.planar_of_computeFactors hf hfdim hs hcell (Quadrature.getElem?_square hq)] at hstored
    exact (Except.ok.inj hstored).symm

end LowOrderRefinement
