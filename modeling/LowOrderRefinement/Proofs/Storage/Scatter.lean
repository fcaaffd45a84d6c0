import LowOrderRefinement.Proofs.Storage.FactorStorage

/-! Jacobians written into storage one entry after the other. Since every write puts an entry
of the computed factors at the place of this entry, storage agrees with the factors
wherever something has been written, and after the last sub-cell everywhere. -/

namespace LowOrderRefinement

variable {α : Type}

/-! ### Writing entry by entry -/

namespace Layout

def write (layout : Layout) (storage : Array α) (index : List Nat) (x : α) :
    Checked (Array α) := do
  let place ← layout.offset index
  if h : place < storage.size then return storage.set place x h else .error .outOfRange

def writeAll (layout : Layout) (storage : Array α) (writes : List (List Nat × α)) :
    Checked (Array α) :=
  writes.foldlM (fun storage w => layout.write storage w.1 w.2) storage

theorem write_eq {layout : Layout} {storage : Array α} {index : List Nat} {x : α}
    (hsize : storage.size = layout.shape.prod) (h : Lattice.inBox index layout.shape) :
    layout.write storage index x =
      .ok (storage.setIfInBounds (Lattice.flatten index layout.shape) x) := by
  have hlt : Lattice.flatten index layout.shape < storage.size := hsize ▸ Lattice.flatten_lt h
  rw [write, layout.offset_eq_ok.mpr ⟨h, rfl⟩, ok_bind, dif_pos hlt, Array.setIfInBounds,
    dif_pos hlt]
  rfl

/-- Writing entries of some target makes storage agree with it where they are written, and keeps the
places where it does already. -/
theorem writeAll_run {layout : Layout} {target storage : Array α} {writes : List (List Nat × α)}
    (hwrites : ∀ w ∈ writes, Lattice.inBox w.1 layout.shape ∧
      target[Lattice.flatten w.1 layout.shape]? = some w.2)
    (hsize : storage.size = layout.shape.prod) :
    ∃ result, layout.writeAll storage writes = .ok result ∧ result.size = layout.shape.prod ∧
      ∀ k, (storage[k]? = target[k]? ∨ ∃ w ∈ writes, Lattice.flatten w.1 layout.shape = k) →
        result[k]? = target[k]? := by
  induction writes generalizing storage with
  | nil => exact ⟨storage, rfl, hsize, fun k hk => by simpa using hk⟩
  | cons w writes ih =>
    obtain ⟨⟨hbox, htarget⟩, hwrites⟩ := List.forall_mem_cons.mp hwrites
    have hsize' : (storage.setIfInBounds (Lattice.flatten w.1 layout.shape) w.2).size =
        layout.shape.prod := by rw [Array.size_setIfInBounds, hsize]
    have hlt : Lattice.flatten w.1 layout.shape < storage.size := hsize ▸ Lattice.flatten_lt hbox
    obtain ⟨result, hresult, hsizeResult, hagree⟩ := ih hwrites hsize'
    refine ⟨result, ?_, hsizeResult, fun k hk => hagree k ?_⟩
    · rw [writeAll, List.foldlM_cons, write_eq hsize hbox, ok_bind]
      exact hresult
    · rw [Array.getElem?_setIfInBounds]
      -- the place just written agrees whatever it held before, any other one is as it was
      by_cases hplace : Lattice.flatten w.1 layout.shape = k
      · left
        rw [if_pos hplace, if_pos hlt, ← hplace, htarget]
      · rw [if_neg hplace]
        refine hk.imp_right ?_
        rintro ⟨w', hw', hwk⟩
        rcases List.mem_cons.mp hw' with rfl | hw'
        · exact absurd hwk hplace
        · exact ⟨w', hw', hwk⟩

end Layout

/-- The entries of the Jacobians of a sub-cell with their indices, point by point, row by row and
column by column. -/
def GeometricFactors.cellWrites [Zero α] (d s : Nat) (jacobians : List (List (List α))) :
    List (List Nat × α) :=
  jacobians.zipIdx.flatMap fun (rows, q) => (List.range d).flatMap fun row =>
    (List.range d).map fun column => ([q, row, column, s], (rows.getD row []).getD column 0)

theorem GeometricFactors.mem_cellWrites [Zero α] {d s : Nat} {jacobians : List (List (List α))}
    {w : List Nat × α} :
    w ∈ cellWrites d s jacobians ↔ ∃ q rows, jacobians[q]? = some rows ∧
      ∃ row < d, ∃ column < d, ([q, row, column, s], (rows.getD row []).getD column 0) = w := by
  simp only [cellWrites, List.mem_flatMap, List.mem_map, List.mem_range, Prod.exists,
    List.mem_zipIdx_iff_getElem?]
  exact exists_comm

namespace Refinement

variable [Scalar α]

def scatterCell (r : Refinement α) (dim : Dimension) (layout : Layout) (storage : Array α)
    (s : Nat) : Outcome α (Array α) := do
  r.checkGeometry dim s
  layout.writeAll storage (GeometricFactors.cellWrites dim.value s (← r.jacobianRows dim s))

/-- Storage of zeros into which all Jacobians are written, sub-cell by sub-cell. -/
def scatter (r : Refinement α) (dim : Dimension) (layout : Layout) : Outcome α (Array α) :=
  (List.range r.subcells).foldlM (r.scatterCell dim layout) (Array.replicate layout.shape.prod 0)

section Scatter

variable {r : Refinement α} {f : GeometricFactors α}

/-- After some sub-cells, storage holds their entries of the computed factors. -/
def Scattered (f : GeometricFactors α) (n : Nat) (storage : Array α) : Prop :=
  storage.size = f.layout.shape.prod ∧
    ∀ s < n, ∀ q < f.dim.vertices, ∀ row < f.dim.value, ∀ column < f.dim.value,
      storage[GeometricFactors.place f.dim s q row column]? =
        f.jacobians[GeometricFactors.place f.dim s q row column]?

theorem mem_productWrites {dim : Dimension} {s : Nat} {w : List Nat × α} :
    w ∈ GeometricFactors.cellWrites dim.value s
        ((List.range dim.vertices).map (r.jacobianProduct dim s)) ↔
      ∃ q < dim.vertices, ∃ row < dim.value, ∃ column < dim.value, ([q, row, column, s],
        Scalar.dot (r.vertexRow dim s row) (Shape.gradientRow dim q column)) = w := by
  rw [GeometricFactors.mem_cellWrites]
  refine exists_congr fun q => ?_
  by_cases hq : q < dim.vertices
  · simp only [r.getElem?_jacobianProduct dim s hq, hq, Option.some.injEq, exists_eq_left',
      true_and]
    refine exists_congr fun row => and_congr_right fun hrow => ?_
    refine exists_congr fun column => and_congr_right fun hcolumn => ?_
    rw [r.getD_jacobianProduct dim s q hrow hcolumn]
  · simp [hq]

/-- Each sub-cell adds its entries and leaves those of the sub-cells before as they are. -/
theorem Scattered.scatterCell {s : Nat} {storage : Array α} (hscattered : Scattered f s storage)
    (h : r.computeFactors = .ok f) (hs : s < r.subcells) (hfits : (r.geometry s).fits f.dim)
    (hlength : (r.vertices s).length = f.dim.value * f.dim.vertices) :
    ∃ result, r.scatterCell f.dim f.layout storage s = .ok result ∧
      Scattered f (s + 1) result := by
  have hsubcell : s < f.subcells := (computeFactors_spec h).2.1 ▸ hs
  have hwrites : ∀ w ∈ GeometricFactors.cellWrites f.dim.value s
      ((List.range f.dim.vertices).map (r.jacobianProduct f.dim s)),
      Lattice.inBox w.1 f.layout.shape ∧
        f.jacobians[Lattice.flatten w.1 f.layout.shape]? = some w.2 := by
    intro w hw
    obtain ⟨q, hq, row, hrow, column, hcolumn, rfl⟩ := mem_productWrites.mp hw
    refine ⟨f.inBox_iff.mpr ⟨hq, hrow, hcolumn, hsubcell⟩, ?_⟩
    rw [f.flatten_eq_place, ← f.entry_eq_ok hsubcell hq hrow hcolumn]
    exact GeometricFactors.entry_eq_product h hs hlength hq hrow hcolumn
  obtain ⟨result, hresult, hsize, hagree⟩ := Layout.writeAll_run hwrites hscattered.1
  have hcheck : r.checkGeometry f.dim s = .ok () := checkGeometry_eq_ok.mpr hfits
  refine ⟨result, ?_, hsize, fun t ht q hq row hrow column hcolumn => hagree _ ?_⟩
  · rw [Refinement.scatterCell, hcheck, ok_bind, jacobianRows_eq hlength, lift_ok, ok_bind, hresult]
    rfl
  · rcases Nat.lt_succ_iff_lt_or_eq.mp ht with ht | rfl
    · exact .inl (hscattered.2 t ht q hq row hrow column hcolumn)
    · exact .inr ⟨_, mem_productWrites.mpr ⟨q, hq, row, hrow, column, hcolumn, rfl⟩,
        f.flatten_eq_place⟩

/-- Written entry by entry, the storage ends up as the entries of the computed factors. -/
theorem scatter_eq (h : r.computeFactors = .ok f)
    (hfits : ∀ s < r.subcells, (r.geometry s).fits f.dim) (hcomplete : r.Furnished f.dim) :
    r.scatter f.dim f.layout = .ok f.jacobians := by
  -- sub-cell by sub-cell, from storage that holds no entry yet
  have hrun (n : Nat) (hn : n ≤ r.subcells) : ∃ storage,
      (List.range n).foldlM (r.scatterCell f.dim f.layout)
        (Array.replicate f.layout.shape.prod 0) = .ok storage ∧ Scattered f n storage := by
    induction n with
    | zero =>
      exact ⟨_, rfl, Array.size_replicate, fun s hs => absurd hs (Nat.not_lt_zero s)⟩
    | succ n ih =>
      obtain ⟨storage, hstorage, hscattered⟩ := ih (Nat.le_of_succ_le hn)
      obtain ⟨result, hresult, hscattered'⟩ :=
        hscattered.scatterCell h hn (hfits n hn) (hcomplete n hn (hfits n hn))
      refine ⟨result, ?_, hscattered'⟩
      rw [List.range_succ, List.foldlM_append, hstorage, ok_bind, List.foldlM_cons, hresult,
        ok_bind]
      rfl
  obtain ⟨storage, hstorage, hsize, hagree⟩ := hrun r.subcells le_rfl
  have hsubcells : f.subcells = r.subcells := (computeFactors_spec h).2.1
  rw [← f.size_jacobians] at hsize
  rw [scatter, hstorage]
  refine congrArg Except.ok (Array.ext_getElem? fun k => ?_)
  by_cases hk : k < f.jacobians.size
  · obtain ⟨s, hs, q, hq, row, hrow, column, hcolumn, rfl⟩ := f.exists_place hk
    exact hagree s (hsubcells ▸ hs) q hq row hrow column hcolumn
  · rw [Array.getElem?_eq_none (Nat.le_of_not_lt hk),
      Array.getElem?_eq_none (hsize ▸ Nat.le_of_not_lt hk)]

end Scatter

/-- The computation of the Jacobians of a planar or spatial refinement whose entries can be stored
ends at the least sub-cell that has another geometry. Without such a sub-cell it gives, for every
sub-cell and quadrature point, the product of the vertex coordinates and the transposed gradients
of the shape functions. The entries have places that are different and make up the storage, so
that writing them one after the other gives the same storage, and any list of all Jacobians by
these places can be taken for them. Given entries are taken when they are as many as the shape
asks for, and are read by the same places. -/
theorem jacobians_stored (r : Refinement α) (dim : Dimension) (hr : r.dim = dim.value)
    (hcomplete : r.Furnished dim) :
    let size := 2 ^ r.dim * r.dim ^ 2 * r.subcells
    (Size.maxEntries < size → ∃ fault, r.computeFactors = .error (.fault fault)) ∧
    (size ≤ Size.maxEntries →
      (∀ s, IsLeast {s | s < r.subcells ∧ (r.geometry s).fits dim = false} s →
        r.computeFactors = .error (.error (.unsupportedGeometry s))) ∧
      ((∀ s < r.subcells, (r.geometry s).fits dim) → ∃ f, r.computeFactors = .ok f ∧
        f.dim = dim ∧ f.subcells = r.subcells ∧ f.jacobians.size = size ∧
        (∀ s < r.subcells, ∀ q < dim.vertices,
          f.rowsAt s q = .ok (r.jacobianProduct dim s q)) ∧
        (∃ place : List Nat → Nat,
          (∀ index n, f.layout.offset index = .ok n ↔
            Lattice.inBox index [dim.vertices, dim.value, dim.value, r.subcells] ∧
              place index = n) ∧
          Set.BijOn place
            {index | Lattice.inBox index [dim.vertices, dim.value, dim.value, r.subcells]}
            (Set.Iio f.jacobians.size)) ∧
        r.scatter dim f.layout = .ok f.jacobians ∧
        f.ListedBy f.jacobians ∧
        ∀ flat, flat.size = f.jacobians.size → f.ListedBy flat →
          GeometricFactors.ofEntries r.dim r.subcells flat = .ok f)) ∧
    ∀ d n (flat : Array α),
      ((∃ f, GeometricFactors.ofEntries d n flat = .ok f) ↔
        (d = 2 ∨ d = 3) ∧ flat.size = 2 ^ d * d ^ 2 * n ∧ 2 ^ d * d ^ 2 * n < Size.limit) ∧
      ∀ f, GeometricFactors.ofEntries d n flat = .ok f →
        f.dim.value = d ∧ f.subcells = n ∧ f.ListedBy flat := by
  intro size
  have hsize : size = dim.vertices * dim.value * dim.value * r.subcells := by
    simp only [size, hr, pow_two, ← Nat.mul_assoc]
    rfl
  rw [hsize]
  refine ⟨computeFactors_of_lt hr, fun hstorage => ⟨fun s hs => ?_, fun hfits => ?_⟩,
    fun d n flat => ⟨GeometricFactors.exists_ofEntries_iff, fun f hf => ?_⟩⟩
  · exact (computeFactors_eq_error hr hcomplete hstorage).mpr ⟨s, hs, rfl⟩
  · obtain ⟨f, hf⟩ : ∃ f, r.computeFactors = .ok f := by
      cases hresult : r.computeFactors with
      | ok f => exact ⟨f, rfl⟩
      | error failure =>
        obtain ⟨s, ⟨⟨hs, hother⟩, -⟩, -⟩ :=
          (computeFactors_eq_error hr hcomplete hstorage).mp hresult
        exact absurd (hfits s hs) (Bool.eq_false_iff.mp hother)
    obtain rfl : f.dim = dim := dim_of_computeFactors hf hr
    have hsubcells : f.subcells = r.subcells := (computeFactors_spec hf).2.1
    refine ⟨f, hf, rfl, hsubcells, hsubcells ▸ f.size_eq, fun s hs q hq => ?_,
      ⟨(Lattice.flatten · f.layout.shape), fun index n => ?_, ?_⟩,
      scatter_eq hf hfits hcomplete, f.listedBy_jacobians, fun flat hflat hlisted => ?_⟩
    · exact GeometricFactors.rowsAt_eq_product hf hs (hcomplete s hs (hfits s hs)) hq
    · rw [f.layout.offset_eq_ok, f.shape_layout, hsubcells]
    · rw [← hsubcells, ← f.shape_layout, f.size_jacobians]
      exact Lattice.bijOn_flatten f.layout.shape
    · rw [f.eq_of_listedBy hflat hlisted, hr, ← hsubcells]
      exact f.ofEntries_jacobians
  · obtain ⟨rfl, hsubcells, rfl⟩ := GeometricFactors.ofEntries_spec hf
    exact ⟨rfl, hsubcells, f.listedBy_jacobians⟩

/-- Two squares have the identity as Jacobian everywhere, which their entries give back; with a
second sub-cell of another geometry they have none. -/
theorem jacobians_stored_squares :
    (∃ f, Assembly.twoSquares.computeFactors = .ok f ∧ f.rowsAt 1 2 = .ok [[1, 0], [0, 1]] ∧
      GeometricFactors.ofEntries 2 2 f.jacobians = .ok f) ∧
    { Assembly.twoSquares with
      geometry := fun s => if s = 1 then .other else .quadrilateral }.computeFactors =
        .error (.error (.unsupportedGeometry 1)) ∧
    (∃ f, GeometricFactors.ofEntries 3 0 (#[] : Array ℚ) = .ok f) := by
  have hfurnished : Assembly.twoSquares.Furnished .two := by
    unfold Furnished
    decide
  have hfits : ∀ s < Assembly.twoSquares.subcells,
      (Assembly.twoSquares.geometry s).fits .two := by decide
  obtain ⟨-, hstored, hgiven⟩ := jacobians_stored Assembly.twoSquares .two rfl hfurnished
  obtain ⟨f, hf, -, -, -, hrows, -, -, hlisted, hagain⟩ := (hstored (by decide)).2 hfits
  obtain ⟨-, hmixed, -⟩ := jacobians_stored { Assembly.twoSquares with
    geometry := fun s => if s = 1 then .other else .quadrilateral } .two rfl
    (fun s hs _ => hfurnished s hs (hfits s hs))
  refine ⟨⟨f, hf, ?_, hagain f.jacobians rfl hlisted⟩, (hmixed (by decide)).1 1 ?_,
    (hgiven 3 0 #[]).1.mpr (by decide)⟩
  · rw [hrows 1 (by decide) 2 (by decide)]
    decide +kernel
  · refine ⟨by decide, fun s hs => ?_⟩
    by_contra hlt
    obtain rfl : s = 0 := Nat.lt_one_iff.mp (Nat.lt_of_not_le hlt)
    exact absurd hs.2 (by decide)

end Refinement

end LowOrderRefinement
