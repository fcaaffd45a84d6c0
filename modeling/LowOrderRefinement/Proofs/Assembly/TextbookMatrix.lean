import LowOrderRefinement.Proofs.Sparse.DenseAdditions
import LowOrderRefinement.Proofs.BoxMesh.MeshNumbering
import LowOrderRefinement.Proofs.Cell.TextbookCell
import LowOrderRefinement.Proofs.Assembly.Semidefinite

/-! Assembled matrices and the textbook formula. The textbook formula adds the matrix of
every cell, which has the energy of the cell as bilinear form, to the entries of its
vertices. Without essential degrees of freedom the assembled matrix has the total
energy as bilinear form, so that the two are equal entry by entry. -/

namespace LowOrderRefinement

open Finset

variable {K : Type} [ExactField K]

namespace DirectStiffness

variable {β : Type}

omit [ExactField K] in
theorem getElem?_flatten_pairs {vs : List β} (f : β → β → K) {row col : Nat} {u v : β}
    (hu : vs[row]? = some u) (hv : vs[col]? = some v) :
    (pairs vs f).flatten[row * vs.length + col]? = some (f u v) := by
  have hcol := (List.getElem?_eq_some_iff.mp hv).1
  rw [pairs, ← List.flatMap, getElem?_flatMap_blocks (fun _ _ => List.length_map _) hcol, hu,
    Option.bind_some, List.getElem?_map, hv, Option.map_some]

theorem exists_cell {dim : Nat} {vertices : List K} {vs : List β} {f : β → β → K}
    (h : cellRows dim vertices = .ok (pairs vs f)) :
    ∃ d, cell dim vertices = .ok d ∧ ∀ row col u v, vs[row]? = some u → vs[col]? = some v →
      d.get? row col = some (f u v) := by
  have hlength : (pairs vs f).length = vs.length := List.length_map _
  have hsize : (pairs vs f).flatten.toArray.size = vs.length * vs.length := by
    simp [pairs, List.length_flatten, Function.comp_def]
  refine ⟨⟨vs.length, vs.length, (pairs vs f).flatten.toArray, hsize⟩, ?_, ?_⟩
  · rw [cell, h, ok_bind, hlength, Dense.ofEntries, dif_pos hsize]
  · intro row col u v hu hv
    have hrow := (List.getElem?_eq_some_iff.mp hu).1
    have hcol := (List.getElem?_eq_some_iff.mp hv).1
    rw [Dense.get?, if_pos ⟨hrow, hcol⟩, List.getElem?_toArray, getElem?_flatten_pairs f hu hv]

theorem addCell_eq {dim : Nat} {vertices : List K} {vs : List β} {f : β → β → K}
    (h : cellRows dim vertices = .ok (pairs vs f)) (node : β → Nat) (d : Dense K) :
    addCell dim d vertices (vs.map node) =
      vs.foldlM (fun d u => vs.foldlM (fun d v => d.add (node u) (node v) (f u v)) d) d := by
  obtain ⟨k, hk, hget⟩ := exists_cell h
  rw [addCell, hk, ok_bind, List.zipIdx_map, List.foldlM_map]
  refine foldlM_zipIdx (fun d p hp => ?_) d
  show (vs.zipIdx.map (Prod.map node id)).foldlM _ d = _
  rw [List.foldlM_map]
  refine foldlM_zipIdx (fun d q hq => ?_) d
  have hvalue : k.get? p.2 q.2 = some (f p.1 q.1) :=
    hget _ _ _ _ (List.mem_zipIdx_iff_getElem?.mp hp) (List.mem_zipIdx_iff_getElem?.mp hq)
  simp only [Prod.map, hvalue, id]

/-- Adding the matrix of a cell adds its form at the vectors that mark a row and a column. -/
theorem adds_addCell {dim n : Nat} {vertices : List K} {vs : List β} {f : β → β → K}
    {node : β → Nat} (h : cellRows dim vertices = .ok (pairs vs f)) (hnode : ∀ v ∈ vs, node v < n) :
    Dense.Adds n (fun d => addCell dim d vertices (vs.map node)) fun i j =>
      pairSum vs f (fun v => (Pi.single i 1 : Nat → K) (node v))
        (fun v => (Pi.single j 1 : Nat → K) (node v)) := by
  have hentry (u : β) (hu : u ∈ vs) (v : β) (hv : v ∈ vs) :
      Dense.Adds n (fun d => d.add (node u) (node v) (f u v)) fun i j =>
        (Pi.single i 1 : Nat → K) (node u) * f u v * (Pi.single j 1 : Nat → K) (node v) := by
    have hamount : (fun i j => (Pi.single i 1 : Nat → K) (node u) * f u v *
        (Pi.single j 1 : Nat → K) (node v)) =
        fun i j => if node u = i ∧ node v = j then f u v else 0 := by
      funext i j
      simp only [Pi.single_apply]
      split_ifs <;> simp_all
    rw [hamount]
    exact Dense.adds_add (hnode u hu) (hnode v hv) (f u v)
  simp only [addCell_eq h]
  exact Dense.adds_foldlM fun u hu => Dense.adds_foldlM (hentry u hu)

end DirectStiffness

namespace Assembly

variable {mesh : BoxMesh K} {essential : List Nat} {options : Options K} {source : JacobianSource K}
  {m : MetricArray K} {a : Csr K}

/-- The textbook matrix of a sub-cell holds the products of its shape functions. -/
theorem Assembled.cellRows_eq
    (h : Assembled mesh.refinement mesh.space essential options mesh.dim source m a)
    (hcurrent : mesh.Current options) {s : Nat} (hs : s < mesh.refinement.subcells) :
    DirectStiffness.cellRows mesh.dim.value (mesh.vertices s) =
      .ok (DirectStiffness.pairs (Shape.vertices mesh.dim) (Kernel.cornerProduct mesh.dim
        (m.terms (mesh.embedding s).parent) (mesh.embedding s).offset)) := by
  have hevaluated := h.evaluated
  have hsource := h.source_eq
  cases hdim : mesh.dim with
  | two =>
    rw [hdim] at hevaluated hsource
    obtain ⟨cell, hcell, hmetric⟩ := hevaluated.planar hs
    have hvertices : Quadrilateral.ofCoordinates (mesh.vertices s) = .ok cell := hcell
    change (Quadrilateral.ofCoordinates (mesh.vertices s) >>= DirectStiffness.planarCell) = _
    rw [hvertices, ok_bind, DirectStiffness.planarCell_eq fun q hq => ?_]
    obtain ⟨j, hj, hplanar⟩ := hmetric q hq
    rwa [← mesh.planar_of_current hcurrent hdim hsource hs hcell hq hj]
  | three =>
    rw [hdim] at hevaluated
    obtain ⟨cell, hcell, hmetric⟩ := hevaluated.solid hs
    have hvertices : Hexahedron.ofCoordinates (mesh.vertices s) = .ok cell := hcell
    change (Hexahedron.ofCoordinates (mesh.vertices s) >>= DirectStiffness.solidCell) = _
    rw [hvertices, ok_bind, DirectStiffness.solidCell_eq fun q hq => ?_]
    rw [← cell.jacobian_eq]
    exact hmetric q hq

/-- The textbook stiffness matrix of all sub-cells is the dense form of the assembled matrix. -/
theorem Assembled.direct_eq_toDense
    (h : Assembled mesh.refinement mesh.space [] options mesh.dim source m a)
    (hcurrent : mesh.Current options) :
    DirectStiffness.assemble mesh.dim.value mesh.space.numDofs mesh.cellTable = a.toDense := by
  -- every sub-cell adds its energy at two unit vectors
  have hcell : ∀ s ∈ List.range mesh.cells.prod, Dense.Adds mesh.space.numDofs
      (fun d => DirectStiffness.addCell mesh.dim.value d (mesh.vertices s) (mesh.subcellNodes s))
      fun i j =>
        mesh.refinement.energy mesh.space mesh.dim m (Pi.single i 1) (Pi.single j 1) s := by
    intro s hs
    have hs : s < mesh.refinement.subcells := List.mem_range.mp hs
    have hadds := DirectStiffness.adds_addCell (h.cellRows_eq hcurrent hs)
      fun v _ => h.cornerDof_lt hs v
    simp only [← Kernel.energy_eq_pairSum] at hadds
    rw [mesh.subcellNodes_eq hs]
    exact hadds
  have hadds := Dense.adds_foldlM hcell
  rw [DirectStiffness.assemble, BoxMesh.cellTable]
  simp only [List.foldlM_map]
  refine Dense.zeros_bind_eq_toDense h.nrows_eq h.ncols_eq hadds fun i hi j hj => ?_
  rw [sum_map_range, ← Csr.form_single a (h.nrows_eq.symm ▸ hi) (h.ncols_eq.symm ▸ hj), h.form_eq]
  rfl

/-- The textbook stiffness matrix of all sub-cells of an up to date box mesh is the assembled
matrix: it exists where there is room for it and has the same entries. -/
theorem assemble_eq_direct (schedule : Schedule) (mesh : BoxMesh K) (options : Options K)
    (hcurrent : mesh.Current options) (a : Csr K)
    (h : (assemble schedule mesh.refinement mesh.space [] options).result = .ok a) :
    let direct := DirectStiffness.assemble mesh.dim.value mesh.space.numDofs mesh.cellTable
    direct = a.toDense ∧
    (mesh.space.numDofs * mesh.space.numDofs ≤ Size.maxEntries → ∃ d, direct = .ok d ∧
      d.nrows = mesh.space.numDofs ∧ d.ncols = mesh.space.numDofs ∧
      ∀ i < mesh.space.numDofs, ∀ j < mesh.space.numDofs, d.value i j = a.value i j) := by
  intro direct
  obtain ⟨dim, source, m, h⟩ := assemble_spec h
  obtain rfl : dim = mesh.dim := Dimension.eq_of_value_eq h.checks.refinement_dim.symm
  have hdirect : direct = a.toDense := h.direct_eq_toDense hcurrent
  refine ⟨hdirect, fun hroom => ?_⟩
  rw [← h.nrows_eq] at hroom ⊢
  have hsquare : a.ncols = a.nrows := h.ncols_eq.trans h.nrows_eq.symm
  obtain ⟨d, hd, hrows, hcols, hvalue⟩ := a.exists_toDense (hsquare.symm ▸ hroom)
  exact ⟨d, hdirect.trans hd, hrows, hcols.trans hsquare, fun i hi j hj =>
    hvalue i hi j (hsquare.symm ▸ hj)⟩

/-- Two squares without stored factors: their textbook matrix has the assembled entries. -/
theorem assemble_eq_direct_bentSquares :
    ∃ a d, (assemble .inOrder BoxMesh.bentSquares.refinement BoxMesh.bentSquares.space []
        (Options.standard.withParallel false)).result = .ok a ∧
      DirectStiffness.assemble 2 6 BoxMesh.bentSquares.cellTable = .ok d ∧
      ∀ i < 6, ∀ j < 6, d.value i j = a.value i j := by
  have hok : (assemble .inOrder BoxMesh.bentSquares.refinement BoxMesh.bentSquares.space []
      (Options.standard.withParallel false)).result.isOk = true := by
    rw [BoxMesh.bentSquares.space_of_bilinear rfl rfl]
    decide +kernel
  obtain ⟨a, ha⟩ := exists_of_isOk hok
  obtain ⟨-, hdirect⟩ := assemble_eq_direct .inOrder BoxMesh.bentSquares _
    (.inr (.inr (.inl rfl))) a ha
  obtain ⟨d, hd, -, -, hvalue⟩ := hdirect (by decide)
  exact ⟨a, d, ha, hd, hvalue⟩

end Assembly

end LowOrderRefinement
