import LowOrderRefinement.Proofs.Errors.Faults
import LowOrderRefinement.Proofs.BoxMesh.MeshNumbering

/-! Box meshes are consistent. However a mesh has been made, its sub-cells fill the elements
of its space place by place, its ordering is a permutation, its vertices are complete
and its elements have the nodes that they should have. An assembly of a mesh with
itself therefore reports no error about these, even if an axis has no elements; what
is left are the basis, the order, stored factors and the geometry. -/

namespace LowOrderRefinement

/-! ### Coordinates in elements -/

namespace Lattice

/-- A place in the grid of an element of a box lies in the refined box. The grid may have some
points more than the element has sub-cells along an axis. -/
theorem inBox_shift_mul {node element elements : List Nat} {order : Nat} (extra : Nat)
    (hnode : inBox node (elements.map fun _ => order + extra)) (helement : inBox element elements) :
    inBox (shift node (element.map (· * order))) (elements.map fun n => n * order + extra) := by
  induction elements generalizing node element with
  | nil => cases node <;> cases element <;> simp_all [inBox, shift]
  | cons n elements ih =>
    cases node with
    | nil => cases hnode
    | cons k node =>
      cases element with
      | nil => cases helement
      | cons e element =>
        simp only [List.map_cons, inBox, Bool.and_eq_true, decide_eq_true_eq] at hnode helement
        simp only [shift, List.map_cons, List.zipWith_cons_cons, inBox, Bool.and_eq_true,
          decide_eq_true_eq]
        have hnext : (e + 1) * order ≤ n * order := Nat.mul_le_mul_right order helement.1
        rw [Nat.succ_mul] at hnext
        exact ⟨by omega, ih hnode.2 helement.2⟩

/-- A cell of a refined box determines its element and its place in the grid of the element. -/
theorem div_mod_shift_mul {place element elements : List Nat} {order : Nat}
    (hplace : inBox place (elements.map fun _ => order)) (helement : inBox element elements) :
    (shift place (element.map (· * order))).map (· / order) = element ∧
      (shift place (element.map (· * order))).map (· % order) = place := by
  induction elements generalizing place element with
  | nil => cases place <;> cases element <;> simp_all [inBox, shift]
  | cons n elements ih =>
    cases place with
    | nil => cases hplace
    | cons k place =>
      cases element with
      | nil => cases helement
      | cons e element =>
        simp only [List.map_cons, inBox, Bool.and_eq_true, decide_eq_true_eq] at hplace helement
        obtain ⟨hdiv, hmod⟩ := ih hplace.2 helement.2
        simp only [shift] at hdiv hmod
        simp only [shift, List.map_cons, List.zipWith_cons_cons, hdiv, hmod, Nat.add_comm k,
          place_div hplace.1, Nat.mul_add_mod_of_lt hplace.1, and_self]

theorem eq_of_div_mod {cell cell' : List Nat} {order : Nat}
    (hdiv : cell.map (· / order) = cell'.map (· / order))
    (hmod : cell.map (· % order) = cell'.map (· % order)) : cell = cell' := by
  induction cell generalizing cell' with
  | nil => cases cell' <;> simp_all
  | cons k cell ih =>
    cases cell' with
    | nil => cases hdiv
    | cons k' cell' =>
      obtain ⟨hk, hdiv⟩ := List.cons.inj hdiv
      obtain ⟨hk', hmod⟩ := List.cons.inj hmod
      dsimp only at hk hk'
      rw [← Nat.div_add_mod k order, hk, hk', Nat.div_add_mod, ih hdiv hmod]

end Lattice

namespace NodeOrdering

theorem size_inverse (xs : List Nat) : (inverse xs).size = xs.length := by
  refine List.foldlRecOn (motive := fun places : Array Nat => places.size = xs.length) _ _
    Array.size_replicate fun places hplaces x _ => ?_
  exact Array.size_setIfInBounds.trans hplaces

theorem inverse_perm {xs : List Nat} {n : Nat} (hxs : xs.Perm (List.range n)) :
    (inverse xs).toList.Perm (List.range n) := by
  have hlength : xs.length = n := by simpa using hxs.length_eq
  have hsubset : List.range n ⊆ (inverse xs).toList := by
    intro i hi
    rw [List.mem_range, ← hlength] at hi
    have hplace := getElem?_inverse hxs (List.getElem?_eq_getElem hi)
    rw [← Array.getElem?_toList] at hplace
    exact List.mem_of_getElem? hplace
  have hsub := List.subperm_of_subset List.nodup_range hsubset
  refine (hsub.perm_of_length_le ?_).symm
  rw [Array.length_toList, size_inverse, hlength, List.length_range]

theorem lexicographic_perm (dim : Dimension) (order : Nat) :
    (lexicographic dim order).toList.Perm (List.range ((order + 1) ^ dim.value)) :=
  inverse_perm (native_perm dim order)

end NodeOrdering

/-! ### Sub-cells and elements of a mesh -/

namespace BoxMesh

variable {α : Type}

theorem map_const_elements (m : BoxMesh α) (n : Nat) :
    m.elements.map (fun _ => n) = List.replicate m.dim.value n := by
  rw [List.map_const', m.length_elements]

section Place

variable {m : BoxMesh α} {element place : List Nat}

/-- The sub-cell at a place in the grid of an element, counted from the lower corner of the
element. -/
def cellAt (m : BoxMesh α) (element place : List Nat) : Nat :=
  Lattice.flatten (Lattice.shift place (element.map (· * m.order))) m.cells

variable (helement : Lattice.inBox element m.elements)
  (hplace : Lattice.inBox place (List.replicate m.dim.value m.order))

include helement hplace

theorem inBox_place : Lattice.inBox (Lattice.shift place (element.map (· * m.order))) m.cells := by
  rw [← map_const_elements] at hplace
  exact Lattice.inBox_shift_mul 0 hplace helement

theorem cellAt_lt : m.cellAt element place < m.cells.prod :=
  Lattice.flatten_lt (inBox_place helement hplace)

theorem cellCoordinates_cellAt : m.cellCoordinates (m.cellAt element place) =
    Lattice.shift place (element.map (· * m.order)) :=
  Lattice.unflatten_flatten (inBox_place helement hplace)

theorem embedding_cellAt : m.embedding (m.cellAt element place) =
    ⟨Lattice.flatten element m.elements,
      Lattice.flatten place (List.replicate m.dim.value m.order)⟩ := by
  have hgrid := hplace
  rw [← map_const_elements] at hgrid
  obtain ⟨hdiv, hmod⟩ := Lattice.div_mod_shift_mul hgrid helement
  simp only [embedding, map_const_cellCoordinates]
  rw [cellCoordinates_cellAt helement hplace, hdiv, hmod]

end Place

/-- The sub-cells of a mesh fill its elements. -/
theorem covers (m : BoxMesh α) :
    m.refinement.Covers m.dim m.elements.prod (m.order ^ m.dim.value) where
  placed s hs :=
    { fits := by
        simp only [refinement]
        cases m.dim <;> rfl
      parent_lt := Lattice.flatten_lt (Lattice.inBox_div m.order_pos (m.inBox_cellCoordinates hs))
      offset_lt := by
        have hlt := Lattice.flatten_lt (m.inBox_offset s)
        rw [List.prod_replicate] at hlt
        show (m.embedding s).offset < _
        rwa [embedding, map_const_cellCoordinates] }
  embedding_inj s hs t ht h := by
    change m.embedding s = m.embedding t at h
    have hdiv := m.unflatten_parent hs
    rw [h, m.unflatten_parent ht] at hdiv
    have hmod := m.unflatten_offset s
    rw [h, m.unflatten_offset t] at hmod
    rw [← Lattice.flatten_unflatten hs, ← Lattice.flatten_unflatten ht]
    exact congrArg (Lattice.flatten · m.cells) (Lattice.eq_of_div_mod hdiv.symm hmod.symm)
  exists_embedding parent hparent offset hoffset := by
    have helement : Lattice.inBox (Lattice.unflatten parent m.elements) m.elements :=
      Lattice.inBox_unflatten (Nat.zero_lt_of_lt hparent)
    have hshape : (List.replicate m.dim.value m.order).prod = m.order ^ m.dim.value :=
      List.prod_replicate ..
    rw [← hshape] at hoffset
    have hplace := Lattice.inBox_unflatten (k := offset) (Nat.zero_lt_of_lt hoffset)
    refine ⟨_, cellAt_lt helement hplace, ?_⟩
    change m.embedding _ = _
    rw [embedding_cellAt helement hplace, Lattice.flatten_unflatten hparent,
      Lattice.flatten_unflatten hoffset]

/-- Every element of a mesh has a node of the lattice at each point of its grid. -/
theorem accepts (m : BoxMesh α) {e : Nat} (he : e < m.elements.prod) :
    m.space.Accepts ((m.order + 1) ^ m.dim.value) e := by
  have helement : Lattice.inBox (Lattice.unflatten e m.elements) m.elements :=
    Lattice.inBox_unflatten (Nat.zero_lt_of_lt he)
  constructor
  · show (m.elementDofs m.nativeGrid _).size = _
    rw [elementDofs, List.size_toArray, List.length_map, nativeGrid, List.length_map,
      (NodeOrdering.native_perm m.dim m.order).length_eq, List.length_range]
  · intro dof hdof
    change dof ∈ m.elementDofs m.nativeGrid _ at hdof
    rw [elementDofs, List.mem_toArray, List.mem_map] at hdof
    obtain ⟨node, hnode, rfl⟩ := hdof
    obtain ⟨lex, -, rfl⟩ := List.mem_map.mp hnode
    have hgrid : Lattice.inBox
        (Lattice.unflatten lex (NodeOrdering.shape m.dim m.order))
        (m.elements.map fun _ => m.order + 1) := by
      rw [map_const_elements]
      exact Lattice.inBox_unflatten (by rw [NodeOrdering.prod_shape]; positivity)
    have hlt := Lattice.flatten_lt (Lattice.inBox_shift_mul 1 hgrid helement)
    show _ < m.positions.size
    rw [m.size_positions]
    exact hlt

/-- A mesh numbers the same sub-cells and nodes as a refinement and as a space. -/
theorem aligned (m : BoxMesh α) : Assembly.Aligned m.refinement m.space m.dim where
  space_dim := rfl
  refinement_dim := rfl
  ordering_perm := NodeOrdering.lexicographic_perm m.dim m.order
  covers := m.covers

theorem subcellNodes_lt (m : BoxMesh α) {s : Nat} (hs : s < m.cells.prod) :
    ∀ node ∈ m.subcellNodes s, node < m.positions.size := by
  intro node hnode
  obtain ⟨v, hv, rfl⟩ := List.mem_map.mp hnode
  have hcorner := (Shape.mem_vertices_iff m.length_cells).mp hv
  rw [m.size_positions]
  exact Lattice.flatten_lt (m.inBox_corner hs hcorner)

theorem complete (m : BoxMesh α) : m.refinement.Complete := by
  intro s hs
  have hblocks : ∀ b ∈ (m.subcellNodes s).map fun node => m.positions.getD node [],
      b.length = m.dim.value := by
    intro b hb
    obtain ⟨node, hnode, rfl⟩ := List.mem_map.mp hb
    have hlt := m.subcellNodes_lt hs node hnode
    rw [Array.getD_eq_getD_getElem?, Array.getElem?_eq_getElem hlt]
    exact m.length_position _ (Array.getElem_mem hlt)
  have hcount : (m.subcellNodes s).length = 2 ^ m.dim.value := by
    rw [subcellNodes, List.length_map]
    cases m.dim <;> rfl
  show (m.vertices s).length = _
  rw [vertices, List.flatMap, length_flatten_blocks hblocks, List.length_map, hcount,
    Nat.mul_comm]
  rfl

/-! ### Errors -/

/-- The errors that a mesh can still lead to: its basis is not nodal, its order is too high, its
stored factors have the wrong sizes where an assembly would use them, or its geometry is refused. -/
def MayReport (m : BoxMesh α) (options : Options α) : Error α → Prop
  | .unsupportedBasis => m.basis ≠ .nodalTensor
  | .unsupportedOrder order => order = m.order ∧ maxOrder < order
  | .mismatch .factorDimension .. | .mismatch .factorSubcells .. =>
    m.dim = .two ∧ options.planarJacobians = .geometricFactors ∧
      ∃ factors, m.factors = some factors
  | .nonPositiveDeterminant .. | .jacobianMismatch .. => True
  | _ => False

variable [Scalar α]

theorem mayReport_of_defect {m : BoxMesh α} {options : Options α} {cause : Error α}
    (h : Assembly.Defect m.refinement m.space options cause) : m.MayReport options cause := by
  have hnumbering := m.aligned.isNumbering_eq_false h
  have hfactors (hdim : m.refinement.dim = 2) : m.dim = .two := Dimension.eq_of_value_eq hdim
  have helements (hkind : cause.kind = .element) : False := by
    obtain ⟨-, e, he, haccepts⟩ := h.exists_not_accepts hkind
    exact haccepts (m.accepts he)
  cases cause with
  | unsupportedBasis => exact h
  | unsupportedOrder order =>
    obtain ⟨rfl, horder⟩ := h
    have hpos : 0 < m.space.order := m.order_pos
    exact ⟨rfl, by omega⟩
  | mismatch quantity expected actual =>
    obtain ⟨-, hsizes⟩ := h
    cases quantity with
    | factorDimension =>
      obtain ⟨hplanar, hdim, -, factors, hsome, -⟩ := hsizes
      exact ⟨hfactors hdim, hplanar, factors, hsome⟩
    | factorSubcells =>
      obtain ⟨hplanar, hdim, -, factors, hsome, -⟩ := hsizes
      exact ⟨hfactors hdim, hplanar, factors, hsome⟩
    | elementDofs => exact helements rfl
    | _ => simp [Error.isNumbering] at hnumbering
  | nonPositiveDeterminant | jacobianMismatch => trivial
  | dofOutOfBounds => exact helements rfl
  | _ => cases hnumbering

/-- Assembling a mesh with itself breaks no requirement when its arrays can be stored. It never
reports an error about its dimension, its sub-cells and their places, its ordering or its degrees of
freedom, and a mismatch only for stored factors that a planar assembly would use. -/
theorem assemble_consistent (schedule : Schedule) (m : BoxMesh α) (essential : List Nat)
    (options : Options α) :
    let result := (Assembly.assemble schedule m.refinement m.space essential options).result
    (Assembly.Storable m.refinement m.space options m.dim → Outcome.Faultless result) ∧
    Outcome.Reports (m.MayReport options) result := by
  constructor
  · intro hstorable
    refine Assembly.faultless_assemble schedule essential m.complete fun dim hdim => ?_
    obtain rfl : m.dim = dim := Dimension.eq_of_value_eq hdim
    exact hstorable
  · exact (Assembly.reports_assemble schedule _ _ essential options).imp fun cause =>
      mayReport_of_defect

/-- The arrays of two bent squares can be stored, and their assembly ends as it should. -/
theorem assemble_consistent_bentSquares :
    Assembly.Storable bentSquares.refinement bentSquares.space Options.standard .two ∧
    Outcome.Faultless (Assembly.assemble .inOrder bentSquares.refinement bentSquares.space []
      Options.standard).result ∧
    Outcome.Reports (bentSquares.MayReport Options.standard)
      (Assembly.assemble .inOrder bentSquares.refinement bentSquares.space []
        Options.standard).result := by
  have hstorable :
      Assembly.Storable bentSquares.refinement bentSquares.space Options.standard .two :=
    ⟨by decide, fun _ _ _ => by decide, by decide⟩
  obtain ⟨hfaultless, hreports⟩ := assemble_consistent .inOrder bentSquares [] Options.standard
  exact ⟨hstorable, hfaultless hstorable, hreports⟩

end BoxMesh

end LowOrderRefinement
