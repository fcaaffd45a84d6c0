import LowOrderRefinement.Proofs.ExactField
import LowOrderRefinement.BoxMesh.Basic
import LowOrderRefinement.Proofs.BoxMesh.Connectivity
import LowOrderRefinement.Proofs.Assembly.TotalEnergy

/-! The numberings of a box mesh. The order in which an element lists its nodes and the
lexicographic order are inverse to each other, an element and a place in its grid
determine a cell of the lattice, and the node at a corner of a sub-cell is the same
whether it is reached through the element or through the lattice of all nodes. -/

namespace LowOrderRefinement

/-! ### The orders of an element -/

namespace NodeOrdering

theorem prod_shape (dim : Dimension) (order : Nat) :
    (shape dim order).prod = (order + 1) ^ dim.value := List.prod_replicate ..

theorem native_perm (dim : Dimension) (order : Nat) :
    (native dim order).Perm (List.range ((order + 1) ^ dim.value)) := by
  rw [native, prod_shape]
  refine ((List.mergeSort_perm _ _).map _).trans ?_
  rw [List.map_map]
  exact List.Perm.of_eq (List.map_id _)

theorem native_two_one : native .two 1 = [0, 1, 3, 2] := by
  have hkeys : (List.range (shape .two 1).prod).map (key .two 1) =
      [⟨0, 0, 0, 0⟩, ⟨0, 1, 2, 1⟩, ⟨0, 3, 6, 2⟩, ⟨0, 2, 8, 3⟩] := by decide
  rw [native, hkeys]
  simp [List.mergeSort, Key.le]

theorem getElem?_places_of_notMem {xs : List Nat} {start x : Nat} {places : Array Nat}
    (hx : x ∉ xs) :
    ((xs.zipIdx start).foldl (fun places (x, i) => places.setIfInBounds x i) places)[x]? =
      places[x]? := by
  induction xs generalizing start places with
  | nil => rfl
  | cons y xs ih =>
    obtain ⟨hne, hxs⟩ := not_or.mp (mt List.mem_cons.mpr hx)
    rw [List.zipIdx_cons, List.foldl_cons, ih hxs, Array.getElem?_setIfInBounds,
      if_neg (Ne.symm hne)]

theorem getElem?_places {xs : List Nat} {start i x : Nat} {places : Array Nat}
    (hnodup : xs.Nodup) (hlt : x < places.size) (hx : xs[i]? = some x) :
    ((xs.zipIdx start).foldl (fun places (x, i) => places.setIfInBounds x i) places)[x]? =
      some (start + i) := by
  induction xs generalizing start i places with
  | nil => cases hx
  | cons y xs ih =>
    obtain ⟨hy, hnodup⟩ := List.nodup_cons.mp hnodup
    rw [List.zipIdx_cons, List.foldl_cons]
    cases i with
    | zero =>
      obtain rfl : y = x := Option.some.inj hx
      rw [getElem?_places_of_notMem hy, Array.getElem?_setIfInBounds, if_pos rfl, if_pos hlt,
        Nat.add_zero]
    | succ i =>
      rw [ih hnodup (by rwa [Array.size_setIfInBounds]) hx]
      congr 1
      omega

/-- The number at a place is found at that place. -/
theorem getElem?_inverse {xs : List Nat} {n : Nat} (hxs : xs.Perm (List.range n)) {i x : Nat}
    (hx : xs[i]? = some x) : (inverse xs)[x]? = some i := by
  have hlength : xs.length = n := by simpa using hxs.length_eq
  have hlt : x < n := List.mem_range.mp (hxs.mem_iff.mp (List.mem_of_getElem? hx))
  rw [inverse, getElem?_places (hxs.nodup_iff.mpr List.nodup_range) (by simp [hlength, hlt]) hx,
    Nat.zero_add]

theorem getElem?_native (dim : Dimension) (order : Nat) {node : Nat}
    (hnode : node < (order + 1) ^ dim.value) :
    (native dim order)[(lexicographic dim order).getD node 0]? = some node := by
  have hmem : node ∈ native dim order :=
    (native_perm dim order).mem_iff.mpr (List.mem_range.mpr hnode)
  obtain ⟨i, hi⟩ := List.mem_iff_getElem?.mp hmem
  have hplace := getElem?_inverse (native_perm dim order) hi
  rw [lexicographic, Array.getD_eq_getD_getElem?, hplace, Option.getD_some, hi]

end NodeOrdering

/-! ### Coordinates -/

namespace Lattice

theorem inBox_div {cell elements : List Nat} {order : Nat} (horder : 0 < order)
    (h : inBox cell (elements.map (· * order))) : inBox (cell.map (· / order)) elements := by
  induction elements generalizing cell with
  | nil => cases cell <;> simp_all [inBox]
  | cons n elements ih =>
    cases cell with
    | nil => cases h
    | cons k cell =>
      simp only [List.map_cons, inBox, Bool.and_eq_true, decide_eq_true_eq] at h ⊢
      exact ⟨(Nat.div_lt_iff_lt_mul horder).mpr h.1, ih h.2⟩

theorem inBox_mod {cell : List Nat} {order : Nat} (horder : 0 < order) :
    inBox (cell.map (· % order)) (cell.map fun _ => order) := by
  induction cell with
  | nil => rfl
  | cons k cell ih =>
    simp only [List.map_cons, inBox, Bool.and_eq_true, decide_eq_true_eq]
    exact ⟨Nat.mod_lt k horder, ih⟩

theorem inBox_shift {cell corner cells : List Nat} (h : inBox cell cells)
    (hcorner : IsCorner corner cells) : inBox (shift cell corner) (nodeShape cells) := by
  induction cells generalizing cell corner with
  | nil => cases cell <;> simp_all [inBox, shift, nodeShape]
  | cons n cells ih =>
    cases cell with
    | nil => cases h
    | cons k cell =>
      cases corner with
      | nil => cases hcorner
      | cons c corner =>
        simp only [IsCorner, List.map_cons, inBox, Bool.and_eq_true, decide_eq_true_eq] at h hcorner
        simp only [shift, nodeShape, List.zipWith_cons_cons, List.map_cons, inBox,
          Bool.and_eq_true, decide_eq_true_eq]
        exact ⟨by omega, ih h.2 hcorner.2⟩

theorem shift_mod_div (cell corner : List Nat) (order : Nat) :
    shift (shift (cell.map (· % order)) corner) ((cell.map (· / order)).map (· * order)) =
      shift cell corner := by
  induction cell generalizing corner with
  | nil => rfl
  | cons k cell ih =>
    cases corner with
    | nil => rfl
    | cons c corner =>
      have hk : k % order + c + k / order * order = k + c := by
        have := Nat.div_add_mod' k order
        omega
      simp only [shift, List.map_cons, List.zipWith_cons_cons, hk]
      exact congrArg ((k + c) :: ·) (ih corner)

theorem shift_left_inj {cell v w : List Nat} (hv : v.length = cell.length)
    (hw : w.length = cell.length) (h : shift cell v = shift cell w) : v = w := by
  induction cell generalizing v w with
  | nil => rw [List.eq_nil_of_length_eq_zero hv, List.eq_nil_of_length_eq_zero hw]
  | cons k cell ih =>
    cases v with
    | nil => cases hv
    | cons c v =>
      cases w with
      | nil => cases hw
      | cons c' w =>
        obtain ⟨hc, hrest⟩ := List.cons.inj h
        rw [Nat.add_left_cancel hc, ih (Nat.succ.inj hv) (Nat.succ.inj hw) hrest]

end Lattice

/-! ### Nodes of sub-cells -/

namespace BoxMesh

variable {α β : Type}

theorem length_cells (m : BoxMesh α) : m.cells.length = m.dim.value := by
  rw [cells, List.length_map, m.length_elements]

theorem nodeShape_cells (m : BoxMesh α) : Lattice.nodeShape m.cells = m.lattice := by
  rw [Lattice.nodeShape, cells, lattice, latticeShape, List.map_map]
  rfl

/-- The degree of freedom of an element at a point of its grid is a node of the lattice. -/
theorem dofAt_eq (m : BoxMesh α) (element : Nat) {node : Nat}
    (hnode : node < (m.order + 1) ^ m.dim.value) :
    m.space.dofAt element node = m.elementNode (Lattice.unflatten element m.elements)
      (Lattice.unflatten node (NodeOrdering.shape m.dim m.order)) := by
  have hplace := NodeOrdering.getElem?_native m.dim m.order hnode
  simp only [Space.dofAt, space, elementDofs, nativeGrid, Array.getD_eq_getD_getElem?,
    List.getElem?_toArray, List.getElem?_map] at hplace ⊢
  rw [hplace]
  rfl

theorem inBox_cellCoordinates (m : BoxMesh α) {s : Nat} (hs : s < m.cells.prod) :
    Lattice.inBox (m.cellCoordinates s) m.cells :=
  Lattice.inBox_unflatten (Nat.lt_of_le_of_lt (Nat.zero_le s) hs)

theorem inBox_corner (m : BoxMesh α) {s : Nat} (hs : s < m.cells.prod) {corner : List Nat}
    (hcorner : Lattice.IsCorner corner m.cells) :
    Lattice.inBox (Lattice.shift (m.cellCoordinates s) corner) m.lattice :=
  m.nodeShape_cells ▸ Lattice.inBox_shift (m.inBox_cellCoordinates hs) hcorner

theorem inBox_node (m : BoxMesh α) {k : Nat} (hk : k < m.lattice.prod) :
    Lattice.inBox (Lattice.unflatten k m.lattice) (Lattice.nodeShape m.cells) := by
  rw [nodeShape_cells]
  exact Lattice.inBox_unflatten (Nat.zero_lt_of_lt hk)

theorem cells_pos (m : BoxMesh α) (helements : ∀ n ∈ m.elements, 0 < n) :
    ∀ n ∈ m.cells, 0 < n := by
  intro n hn
  obtain ⟨k, hk, rfl⟩ := List.mem_map.mp hn
  exact Nat.mul_pos (helements k hk) m.order_pos

theorem unflatten_parent (m : BoxMesh α) {s : Nat} (hs : s < m.cells.prod) :
    Lattice.unflatten (m.embedding s).parent m.elements =
      (m.cellCoordinates s).map (· / m.order) :=
  Lattice.unflatten_flatten (Lattice.inBox_div m.order_pos (m.inBox_cellCoordinates hs))

theorem map_const_cellCoordinates (m : BoxMesh α) (s n : Nat) :
    (m.cellCoordinates s).map (fun _ => n) = List.replicate m.dim.value n := by
  rw [List.map_const', cellCoordinates, Lattice.length_unflatten, length_cells]

theorem inBox_offset (m : BoxMesh α) (s : Nat) :
    Lattice.inBox ((m.cellCoordinates s).map (· % m.order))
      (List.replicate m.dim.value m.order) := by
  rw [← m.map_const_cellCoordinates s]
  exact Lattice.inBox_mod m.order_pos

theorem unflatten_offset (m : BoxMesh α) (s : Nat) :
    Lattice.unflatten (m.embedding s).offset (List.replicate m.dim.value m.order) =
      (m.cellCoordinates s).map (· % m.order) := by
  simp only [embedding, map_const_cellCoordinates]
  exact Lattice.unflatten_flatten (m.inBox_offset s)

/-- The node at a corner of a sub-cell is the same through its element and through the lattice. -/
theorem cornerDof_eq (m : BoxMesh α) {s : Nat} (hs : s < m.cells.prod) {corner : List Nat}
    (hcorner : Lattice.IsCorner corner m.cells) :
    m.refinement.cornerDof m.space m.dim s corner =
      Lattice.flatten (Lattice.shift (m.cellCoordinates s) corner) m.lattice := by
  have hcorner' : Lattice.IsCorner corner (List.replicate m.dim.value m.order) := by
    rw [Lattice.IsCorner, List.map_const', length_cells] at hcorner
    rwa [Lattice.IsCorner, List.map_replicate]
  have hin := Lattice.inBox_shift (m.inBox_offset s) hcorner'
  rw [Lattice.nodeShape, List.map_replicate] at hin
  have hnode := Lattice.flatten_lt hin
  rw [List.prod_replicate] at hnode
  change m.space.dofAt (m.embedding s).parent
    (Kernel.cornerNode m.dim m.order (m.embedding s).offset corner) = _
  rw [Kernel.cornerNode, unflatten_offset, dofAt_eq m _ hnode, unflatten_parent m hs,
    NodeOrdering.shape, Lattice.unflatten_flatten hin, elementNode, Lattice.shift_mod_div]

theorem subcellNodes_eq (m : BoxMesh α) {s : Nat} (hs : s < m.cells.prod) :
    m.subcellNodes s =
      (Shape.vertices m.dim).map fun v => m.refinement.cornerDof m.space m.dim s v :=
  List.map_congr_left fun _ hv =>
    (m.cornerDof_eq hs ((Shape.mem_vertices_iff m.length_cells).mp hv)).symm

/-- The space of a planar mesh of order one, whose elements list their nodes around a square. -/
theorem space_of_bilinear (m : BoxMesh α) (hdim : m.dim = .two) (horder : m.order = 1) :
    m.space = { m.space with
      dofs := fun element =>
        m.elementDofs [[0, 0], [1, 0], [1, 1], [0, 1]] (Lattice.unflatten element m.elements)
      ordering := #[0, 1, 3, 2] } := by
  simp only [space, nativeGrid, NodeOrdering.lexicographic, hdim, horder,
    NodeOrdering.native_two_one]
  rfl

/-- Two squares side by side, with a corner that has moved outward. -/
def bentSquares : BoxMesh ℚ where
  dim := .two
  elements := [2, 1]
  order := 1
  positions := #[[0, 0], [1, 0], [2, 0], [0, 1], [1, 1], [3, 2]]
  basis := .nodalTensor
  factors := none
  length_elements := rfl
  order_pos := Nat.one_pos
  size_positions := rfl
  length_position := by decide
  nodes_fit := by decide
  order_fit := by decide

/-! ### The whole lattice -/

/-- A vector with one value on the corners of each sub-cell has one value on all nodes. -/
theorem const_on_nodes (m : BoxMesh α) (helements : ∀ n ∈ m.elements, 0 < n) {x : Nat → β}
    (hx : ∀ s < m.cells.prod, ∀ v ∈ Shape.vertices m.dim, ∀ w ∈ Shape.vertices m.dim,
      x (m.refinement.cornerDof m.space m.dim s v) = x (m.refinement.cornerDof m.space m.dim s w))
    {i j : Nat} (hi : i < m.space.numDofs) (hj : j < m.space.numDofs) : x i = x j := by
  have hconst : Lattice.ConstOnCells (fun node => x (Lattice.flatten node m.lattice)) m.cells := by
    intro cell hcell v w hv hw
    have hs := Lattice.flatten_lt hcell
    have hsame := hx _ hs v ((Shape.mem_vertices_iff m.length_cells).mpr hv) w
      ((Shape.mem_vertices_iff m.length_cells).mpr hw)
    simpa only [m.cornerDof_eq hs hv, m.cornerDof_eq hs hw, cellCoordinates,
      Lattice.unflatten_flatten hcell] using hsame
  have hnumDofs : m.space.numDofs = m.lattice.prod := m.size_positions
  rw [hnumDofs] at hi hj
  have hsame := Lattice.eq_of_constOnCells hconst (m.cells_pos helements) (m.inBox_node hi)
    (m.inBox_node hj)
  simpa only [Lattice.flatten_unflatten hi, Lattice.flatten_unflatten hj] using hsame

end BoxMesh

end LowOrderRefinement
