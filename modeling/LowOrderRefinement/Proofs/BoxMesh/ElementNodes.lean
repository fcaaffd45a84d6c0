import Mathlib.Data.Nat.Digits.Defs
import LowOrderRefinement.Proofs.Stencil.PairContributions
import LowOrderRefinement.Proofs.BoxMesh.MeshConsistency

/-! The nodes of a box mesh as its elements and as its sub-cells list them. The degree of
freedom of an element at a point of its grid is the node of the lattice there, so that an
element lists no node twice, elements share the nodes of the points that they have in common,
and elements that exist along all axes have every node between them. A sub-cell has the same
nodes at its vertices whether they are read through its place in its element, as a kernel
does, or along the lattice. -/

namespace LowOrderRefinement

/-! ### Coordinates -/

namespace Lattice

/-- In a cube the coordinates of a point are the digits of its number. -/
theorem flatten_replicate (index : List Nat) (n : Nat) :
    flatten index (List.replicate index.length n) = Nat.ofDigits n index := by
  induction index with
  | nil => rfl
  | cons c index ih =>
    rw [List.length_cons, List.replicate_succ, flatten, ih, Nat.ofDigits_cons, Nat.add_comm,
      Nat.mul_comm]

theorem flatten_inj {index index' shape : List Nat} (h : inBox index shape)
    (h' : inBox index' shape) (heq : flatten index shape = flatten index' shape) :
    index = index' := by
  rw [← unflatten_flatten h, heq, unflatten_flatten h']

theorem pos_of_inBox {index shape : List Nat} (h : inBox index shape) : ∀ n ∈ shape, 0 < n := by
  fun_induction inBox index shape with
  | case1 => simp
  | case2 i is n ns ih =>
    simp only [Bool.and_eq_true, decide_eq_true_eq] at h
    exact List.forall_mem_cons.mpr ⟨Nat.zero_lt_of_lt h.1, ih h.2⟩
  | case3 => cases h

/-- The number of a point is computed exactly when it is a size. -/
theorem flattenChecked_eq_ok {index shape : List Nat} (hshape : ∀ n ∈ shape, 0 < n) {k : Nat} :
    flattenChecked index shape = .ok k ↔
      flatten index shape < Size.limit ∧ flatten index shape = k := by
  fun_induction flatten index shape generalizing k with
  | case1 i is n ns ih =>
    obtain ⟨hn, hns⟩ := List.forall_mem_cons.mp hshape
    simp only [flattenChecked, bind_eq_ok, ih hns, Size.mul_eq_ok, Size.add_eq_ok]
    constructor
    · rintro ⟨_, ⟨-, rfl⟩, _, ⟨-, rfl⟩, h⟩
      exact h
    · intro h
      -- what is computed on the way is no larger than the number
      have hrest : flatten is ns ≤ flatten is ns * n := Nat.le_mul_of_pos_right _ hn
      exact ⟨_, ⟨by omega, rfl⟩, _, ⟨by omega, rfl⟩, h⟩
  | case2 is ns hne =>
    rw [flattenChecked.eq_2 _ _ hne, Except.ok.injEq]
    exact ⟨fun h => ⟨by decide, h⟩, And.right⟩

theorem flattenChecked_eq {index shape : List Nat} (h : inBox index shape)
    (hsize : shape.prod < Size.limit) : flattenChecked index shape = .ok (flatten index shape) :=
  (flattenChecked_eq_ok (pos_of_inBox h)).mpr ⟨(flatten_lt h).trans hsize, rfl⟩

theorem shift_comm (a b : List Nat) : shift a b = shift b a :=
  List.zipWith_comm_of_comm Nat.add_comm

/-- Every point of a refined box belongs to an element. -/
theorem exists_shift_mul {point elements : List Nat} {order : Nat}
    (hpos : ∀ n ∈ elements, 0 < n) (hpoint : inBox point (elements.map fun n => n * order + 1)) :
    ∃ element node, inBox element elements ∧ inBox node (elements.map fun _ => order + 1) ∧
      shift node (element.map (· * order)) = point := by
  induction elements generalizing point with
  | nil =>
    cases point with
    | nil => exact ⟨[], [], rfl, rfl, rfl⟩
    | cons => cases hpoint
  | cons n elements ih =>
    cases point with
    | nil => cases hpoint
    | cons k point =>
      simp only [List.map_cons, inBox, Bool.and_eq_true, decide_eq_true_eq] at hpoint
      obtain ⟨hn, hpos⟩ := List.forall_mem_cons.mp hpos
      obtain ⟨element, node, helement, hnode, rfl⟩ := ih hpos hpoint.2
      -- the upper end of the axis belongs to the last element
      have hend : (n - 1 + 1) * order = n * order := by rw [Nat.sub_add_cancel hn]
      rw [Nat.succ_mul] at hend
      rcases Nat.lt_or_ge k ((n - 1) * order) with hk | hk
      · have horder : 0 < order := by
          by_contra h0
          simp [Nat.eq_zero_of_not_pos h0] at hk
        refine ⟨k / order :: element, k % order :: node, ?_, ?_, ?_⟩
        · have hdiv : k / order < n - 1 := (Nat.div_lt_iff_lt_mul horder).mpr hk
          simp only [inBox, helement, Bool.and_true, decide_eq_true_eq]
          omega
        · simp only [List.map_cons, inBox, hnode, Bool.and_true, decide_eq_true_eq]
          exact Nat.lt_succ_of_lt (Nat.mod_lt k horder)
        · simp only [shift, List.map_cons, List.zipWith_cons_cons, Nat.mod_add_div']
      · refine ⟨(n - 1) :: element, (k - (n - 1) * order) :: node, ?_, ?_, ?_⟩
        · simp only [inBox, helement, Bool.and_true, decide_eq_true_eq]
          omega
        · simp only [List.map_cons, inBox, hnode, Bool.and_true, decide_eq_true_eq]
          omega
        · simp only [shift, List.map_cons, List.zipWith_cons_cons, Nat.sub_add_cancel hk]

end Lattice

/-! ### Elements -/

theorem NodeOrdering.inBox_shape_iff {dim : Dimension} {order : Nat} {node : List Nat} :
    Lattice.inBox node (shape dim order) ↔ node.length = dim.value ∧ ∀ c ∈ node, c ≤ order := by
  simp only [shape, Lattice.inBox_replicate, Nat.lt_succ_iff]

namespace BoxMesh

variable {α : Type}

/-- The coordinates of the points of the grid of an element. -/
def IsGridPoint (m : BoxMesh α) (point : List Nat) : Prop :=
  point.length = m.dim.value ∧ ∀ c ∈ point, c ≤ m.order

/-- The coordinates in the lattice of a point of the grid of an element. -/
def latticePoint (m : BoxMesh α) (element : Nat) (point : List Nat) : List Nat :=
  Lattice.shift point ((Lattice.unflatten element m.elements).map (· * m.order))

def gridNumber (m : BoxMesh α) (point : List Nat) : Nat := Nat.ofDigits (m.order + 1) point

section Element

variable {m : BoxMesh α} {point point' : List Nat} {e e' : Nat}

theorem isGridPoint_iff :
    m.IsGridPoint point ↔ Lattice.inBox point (NodeOrdering.shape m.dim m.order) :=
  NodeOrdering.inBox_shape_iff.symm

theorem IsGridPoint.gridNumber_eq (h : m.IsGridPoint point) :
    m.gridNumber point = Lattice.flatten point (NodeOrdering.shape m.dim m.order) := by
  rw [gridNumber, ← Lattice.flatten_replicate, NodeOrdering.shape, h.1]

theorem IsGridPoint.gridNumber_lt (h : m.IsGridPoint point) :
    m.gridNumber point < (m.order + 1) ^ m.dim.value := by
  rw [h.gridNumber_eq, ← NodeOrdering.prod_shape]
  exact Lattice.flatten_lt (isGridPoint_iff.mp h)

theorem IsGridPoint.inBox_latticePoint (h : m.IsGridPoint point) (he : e < m.elements.prod) :
    Lattice.inBox (m.latticePoint e point) m.lattice := by
  apply Lattice.inBox_shift_mul 1
  · rw [map_const_elements]
    exact isGridPoint_iff.mp h
  · exact Lattice.inBox_unflatten (Nat.zero_lt_of_lt he)

/-- The degree of freedom of an element at a point of its grid is the node of the lattice there. -/
theorem IsGridPoint.dofAt_eq (h : m.IsGridPoint point) (e : Nat) :
    m.space.dofAt e (m.gridNumber point) = Lattice.flatten (m.latticePoint e point) m.lattice := by
  rw [BoxMesh.dofAt_eq m e h.gridNumber_lt, h.gridNumber_eq,
    Lattice.unflatten_flatten (isGridPoint_iff.mp h)]
  rfl

theorem IsGridPoint.nodeIndex_eq (h : m.IsGridPoint point) (he : e < m.elements.prod) :
    m.nodeIndex (m.latticePoint e point) = .ok (m.space.dofAt e (m.gridNumber point)) := by
  rw [h.dofAt_eq]
  exact Lattice.flattenChecked_eq (h.inBox_latticePoint he) (Size.lt_limit_of_le m.nodes_fit)

theorem IsGridPoint.exists_place (h : m.IsGridPoint point) (he : e < m.elements.prod) :
    ∃ place, m.space.ordering[m.gridNumber point]? = some place ∧
      (m.space.dofs e)[place]? = some (m.space.dofAt e (m.gridNumber point)) :=
  Space.exists_place (m.accepts he) m.aligned.ordering_perm h.gridNumber_lt

theorem latticePoint_inj (h : m.IsGridPoint point) (h' : m.IsGridPoint point')
    (heq : m.latticePoint e point = m.latticePoint e point') : point = point' := by
  have hlength : ((Lattice.unflatten e m.elements).map (· * m.order)).length = m.dim.value := by
    rw [List.length_map, Lattice.length_unflatten, m.length_elements]
  rw [latticePoint, latticePoint, Lattice.shift_comm, Lattice.shift_comm point'] at heq
  exact Lattice.shift_left_inj (h.1.trans hlength.symm) (h'.1.trans hlength.symm) heq

/-- Elements share the nodes of the points of the lattice that they share. -/
theorem dofAt_eq_iff (he : e < m.elements.prod) (he' : e' < m.elements.prod)
    (h : m.IsGridPoint point) (h' : m.IsGridPoint point') :
    m.space.dofAt e (m.gridNumber point) = m.space.dofAt e' (m.gridNumber point') ↔
      m.latticePoint e point = m.latticePoint e' point' := by
  rw [h.dofAt_eq, h'.dofAt_eq]
  constructor
  · exact Lattice.flatten_inj (h.inBox_latticePoint he) (h'.inBox_latticePoint he')
  · exact congrArg (Lattice.flatten · m.lattice)

theorem toList_dofs (m : BoxMesh α) (e : Nat) :
    (m.space.dofs e).toList = (NodeOrdering.native m.dim m.order).map fun node =>
      Lattice.flatten (m.latticePoint e
        (Lattice.unflatten node (NodeOrdering.shape m.dim m.order))) m.lattice := by
  change (m.nativeGrid.map _).toArray.toList = _
  rw [nativeGrid, List.map_map]
  rfl

theorem nodup_dofs (he : e < m.elements.prod) : (m.space.dofs e).toList.Nodup := by
  have hperm := NodeOrdering.native_perm m.dim m.order
  have hgrid (node : Nat) :
      m.IsGridPoint (Lattice.unflatten node (NodeOrdering.shape m.dim m.order)) := by
    apply isGridPoint_iff.mpr (Lattice.inBox_unflatten _)
    rw [NodeOrdering.prod_shape]
    exact Nat.pow_pos (Nat.succ_pos m.order)
  rw [toList_dofs]
  apply (hperm.nodup_iff.mpr List.nodup_range).map_on
  intro node hnode node' hnode' heq
  have hpoint := Lattice.flatten_inj ((hgrid node).inBox_latticePoint he)
    ((hgrid node').inBox_latticePoint he) heq
  have hunflatten := latticePoint_inj (hgrid node) (hgrid node') hpoint
  rw [hperm.mem_iff, List.mem_range, ← NodeOrdering.prod_shape] at hnode hnode'
  rw [← Lattice.flatten_unflatten hnode, hunflatten, Lattice.flatten_unflatten hnode']

/-- A box with elements along all axes has every node in one of them. -/
theorem exists_mem_dofs (hpos : ∀ n ∈ m.elements, 0 < n) {node : Nat}
    (hnode : node < m.space.numDofs) : ∃ e < m.elements.prod, node ∈ m.space.dofs e := by
  have hnode : node < m.lattice.prod := m.size_positions ▸ hnode
  have hinBox : Lattice.inBox (Lattice.unflatten node m.lattice) m.lattice :=
    Lattice.inBox_unflatten (Nat.zero_lt_of_lt hnode)
  obtain ⟨element, point, helement, hpoint, heq⟩ := Lattice.exists_shift_mul hpos hinBox
  rw [map_const_elements] at hpoint
  have hgrid : m.IsGridPoint point := isGridPoint_iff.mpr hpoint
  refine ⟨_, Lattice.flatten_lt helement, ?_⟩
  obtain ⟨place, -, hplace⟩ := hgrid.exists_place (Lattice.flatten_lt helement)
  rw [hgrid.dofAt_eq, latticePoint, Lattice.unflatten_flatten helement, heq,
    Lattice.flatten_unflatten hnode] at hplace
  exact Array.mem_of_getElem? hplace

end Element

/-! ### Sub-cells -/

section Subcell

variable {m : BoxMesh α} {s : Nat}

/-- The place of a planar sub-cell in its element is one at whose corners a kernel reads the nodes
of the sub-cell. -/
def ReadsSquare (m : BoxMesh α) (s : Nat) : Prop :=
  ∃ kx < m.order, ∃ ky < m.order, (m.embedding s).offset = kx + ky * m.order ∧
    ∀ i a b : Nat, Shape.squareVertices[i]? = some (a, b) → (m.subcellNodes s)[i]? =
      some (m.space.dofAt (m.embedding s).parent
        (Stencil.Planar.Node.number m.order ⟨kx + a, ky + b⟩))

/-- The place of a spatial sub-cell in its element is one at whose corners a kernel reads the nodes
of the sub-cell. -/
def ReadsCube (m : BoxMesh α) (s : Nat) : Prop :=
  ∃ k ∈ Stencil.Solid.cells m.order, k.number m.order = (m.embedding s).offset ∧
    ∀ i a b c : Nat, Shape.cubeVertices[i]? = some (a, b, c) → (m.subcellNodes s)[i]? =
      some (m.space.dofAt (m.embedding s).parent (k.node m.order ⟨a, b, c⟩))

theorem readsSquare (hdim : m.dim = .two) (hs : s < m.cells.prod) : m.ReadsSquare s := by
  have hoffset : (m.embedding s).offset < m.order ^ m.dim.value := (m.covers.placed s hs).offset_lt
  rw [hdim] at hoffset
  have hky : (m.embedding s).offset / m.order < m.order :=
    Nat.div_lt_of_lt_mul (hoffset.trans_eq (pow_two m.order))
  have hkx := Nat.mod_lt (m.embedding s).offset m.order_pos
  refine ⟨_, hkx, _, hky, (Nat.mod_add_div' _ _).symm, fun i a b hi => ?_⟩
  have hvertex : (Shape.vertices m.dim)[i]? = some [a, b] := by
    rw [hdim, Shape.vertices, List.getElem?_map, hi]
    rfl
  have hcorner := Stencil.Planar.cornerNode_eq hkx hky a b
  rw [Nat.div_add_mod'] at hcorner
  rw [m.subcellNodes_eq hs, List.getElem?_map, hvertex, hdim]
  exact congrArg (fun node => some (m.space.dofAt (m.embedding s).parent node)) hcorner

theorem readsCube (hdim : m.dim = .three) (hs : s < m.cells.prod) : m.ReadsCube s := by
  have hoffset : (m.embedding s).offset < m.order ^ m.dim.value := (m.covers.placed s hs).offset_lt
  rw [hdim, ← List.mem_range, Dimension.value, ← Stencil.Solid.map_number_cells,
    List.mem_map] at hoffset
  obtain ⟨k, hk, hnumber⟩ := hoffset
  obtain ⟨hx, hy, hz⟩ := Stencil.Solid.mem_cells.mp hk
  refine ⟨k, hk, hnumber, fun i a b c hi => ?_⟩
  have hvertex : (Shape.vertices m.dim)[i]? = some [a, b, c] := by
    rw [hdim, Shape.vertices, List.getElem?_map, hi]
    rfl
  have hcorner := Stencil.Solid.node_eq hx hy hz ⟨a, b, c⟩
  rw [← Stencil.Solid.number_eq, hnumber] at hcorner
  rw [m.subcellNodes_eq hs, List.getElem?_map, hvertex, hdim]
  exact congrArg (fun node => some (m.space.dofAt (m.embedding s).parent node)) hcorner.symm

end Subcell

/-- The degree of freedom that an element of a mesh lists at the place of a point of its grid is
the node of the lattice at the point, and it is what the kernels read. An element therefore lists
no node twice, elements share exactly the nodes of common points, all nodes are listed unless the
box is empty, and at the corners of a sub-cell an element lists the nodes of the sub-cell. -/
theorem element_nodes [Scalar α] (m : BoxMesh α) :
    let dof (e : Nat) (point : List Nat) := m.space.dofAt e (m.gridNumber point)
    (∀ e < m.elements.prod, ∀ point, m.IsGridPoint point →
      m.nodeIndex (m.latticePoint e point) = .ok (dof e point) ∧
      ∃ place, m.space.ordering[m.gridNumber point]? = some place ∧
        (m.space.dofs e)[place]? = some (dof e point)) ∧
    (∀ e < m.elements.prod, (m.space.dofs e).size = (m.order + 1) ^ m.dim.value ∧
      (m.space.dofs e).toList.Nodup) ∧
    (∀ e < m.elements.prod, ∀ e' < m.elements.prod, ∀ point point', m.IsGridPoint point →
      m.IsGridPoint point' →
        (dof e point = dof e' point' ↔ m.latticePoint e point = m.latticePoint e' point')) ∧
    ((∀ n ∈ m.elements, 1 ≤ n) → ∀ node < m.lattice.prod,
      ∃ e < m.elements.prod, node ∈ m.space.dofs e) ∧
    (∀ e < m.elements.prod, ∀ terms : Array α,
      terms.size = m.dim.components * m.dim.vertices * m.order ^ m.dim.value →
      Kernel.ofOrder m.dim m.order terms (m.space.dofs e) m.space.ordering =
        .ok ((Kernel.nodeTriplets m.dim m.order terms).map (·.relabel (m.space.dofAt e)))) ∧
    (m.dim = .two → ∀ s < m.cells.prod, m.ReadsSquare s) ∧
    (m.dim = .three → ∀ s < m.cells.prod, m.ReadsCube s) := by
  intro dof
  refine ⟨fun e he point h => ⟨h.nodeIndex_eq he, h.exists_place he⟩,
    fun e he => ⟨(m.accepts he).1, nodup_dofs he⟩,
    fun e he e' he' point point' h h' => dofAt_eq_iff he he' h h', fun hpos node hnode => ?_,
    fun e he terms hterms => ?_, fun hdim s hs => readsSquare hdim hs,
    fun hdim s hs => readsCube hdim hs⟩
  · have hnumDofs : m.space.numDofs = m.lattice.prod := m.size_positions
    exact exists_mem_dofs hpos (hnumDofs ▸ hnode)
  · have hordering := m.aligned.ordering_perm
    exact Kernel.ofOrder_eq_ok hterms (Space.size_ordering hordering)
      (Space.place_lt_size (m.accepts he) hordering)

def quadraticCubes : BoxMesh ℚ where
  dim := .three
  elements := [2, 1, 1]
  order := 2
  positions := ((Lattice.points [5, 3, 3]).map fun node => node.map (· / 2 : Nat → ℚ)).toArray
  basis := .nodalTensor
  factors := none
  length_elements := rfl
  order_pos := Nat.two_pos
  size_positions := by simp [Lattice.points, latticeShape]
  length_position := by simp [Lattice.points, Dimension.value]
  nodes_fit := by decide
  order_fit := by decide

/-- Two squares share the nodes of their common edge, and the nodes of a sub-cell of two cubes are
those at its place in the second cube. -/
theorem element_nodes_side_by_side :
    (bentSquares.IsGridPoint [1, 0] ∧ bentSquares.IsGridPoint [0, 0] ∧
      bentSquares.space.dofAt 0 (bentSquares.gridNumber [1, 0]) =
        bentSquares.space.dofAt 1 (bentSquares.gridNumber [0, 0])) ∧
    ((∀ n ∈ bentSquares.elements, 1 ≤ n) ∧ ∃ e < 2, 4 ∈ bentSquares.space.dofs e) ∧
    (∃ ts, Kernel.ofOrder .two 1 (Array.replicate 12 (1 : ℚ)) (bentSquares.space.dofs 1)
      bentSquares.space.ordering = .ok ts) ∧
    (∃ kx < 1, ∃ ky < 1, bentSquares.space.dofAt 1
      (Stencil.Planar.Node.number 1 ⟨kx + 1, ky + 1⟩) = 5) ∧
    (quadraticCubes.IsGridPoint [1, 2, 0] ∧
      quadraticCubes.space.dofAt 1 (quadraticCubes.gridNumber [1, 2, 0]) = 13) ∧
    ∃ k ∈ Stencil.Solid.cells 2, k.number 2 = 6 ∧
      quadraticCubes.space.dofAt 1 (k.node 2 ⟨1, 1, 1⟩) = 43 := by
  have hleft : bentSquares.IsGridPoint [1, 0] := ⟨rfl, by decide⟩
  have hright : bentSquares.IsGridPoint [0, 0] := ⟨rfl, by decide⟩
  have hpos : ∀ n ∈ bentSquares.elements, 1 ≤ n := by decide
  have hcube : quadraticCubes.IsGridPoint [1, 2, 0] := ⟨rfl, by decide⟩
  obtain ⟨-, -, hshared, hcovered, hkernel, hplanar, -⟩ := element_nodes bentSquares
  obtain ⟨hnodes, -, -, -, -, -, hsolid⟩ := element_nodes quadraticCubes
  obtain ⟨kx, hkx, ky, hky, -, hsquare⟩ := hplanar rfl 1 (by decide)
  obtain ⟨k, hk, hnumber, hcorners⟩ := hsolid rfl 14 (by decide)
  have hthirteen : (.ok 13 : Checked Nat) = _ := (hnodes 1 (by decide) _ hcube).1
  exact ⟨⟨hleft, hright, (hshared 0 (by decide) 1 (by decide) _ _ hleft hright).mpr rfl⟩,
    ⟨hpos, hcovered hpos 4 (by decide)⟩, ⟨_, hkernel 1 (by decide) (Array.replicate 12 1) rfl⟩,
    ⟨kx, hkx, ky, hky, (Option.some.inj (hsquare 2 1 1 rfl)).symm⟩,
    ⟨hcube, (Except.ok.inj hthirteen).symm⟩,
    ⟨k, hk, hnumber, (Option.some.inj (hcorners 6 1 1 1 rfl)).symm⟩⟩

end BoxMesh

end LowOrderRefinement
