import LowOrderRefinement.Proofs.Evaluation.PointTerms
import LowOrderRefinement.Proofs.Invariance.Symmetry

/-! Locality of assembled matrices. An entry reads the metric terms of the sub-cells that
have both of its nodes as corners, and of no others, in the plane and in space. So a
node that moves changes an entry only through a sub-cell that has this node and both
nodes of the entry as corners. -/

namespace LowOrderRefinement

variable {α : Type}

/-! ### One element -/

namespace Kernel

/-- The terms of a sub-cell of an element are the same in two arrays. -/
def Agree (dim : Dimension) (terms terms' : Array α) (cell : Nat) : Prop :=
  ∀ x < dim.components * dim.vertices,
    terms'[cell * (dim.components * dim.vertices) + x]? =
      terms[cell * (dim.components * dim.vertices) + x]?

variable [Scalar α] {terms terms' : Array α} {cell q : Nat}

theorem Agree.components_eq {dim : Dimension} (h : Agree dim terms terms' cell)
    (hq : q < dim.vertices) :
    ((List.range dim.components).map fun c =>
      terms'.getD (dim.components * (q + dim.vertices * cell) + c) 0) =
      (List.range dim.components).map fun c =>
        terms.getD (dim.components * (q + dim.vertices * cell) + c) 0 := by
  refine List.map_congr_left fun c hc => ?_
  have hplace : dim.components * (q + dim.vertices * cell) + c =
      cell * (dim.components * dim.vertices) + (q * dim.components + c) := by ring
  have hlt : q * dim.components + c < dim.components * dim.vertices := by
    rw [Nat.mul_comm dim.components]
    exact Lattice.place_lt hq (List.mem_range.mp hc)
  rw [Array.getD_eq_getD_getElem?, Array.getD_eq_getD_getElem?, hplace, h _ hlt]

theorem Agree.planarMetric_eq (h : Agree .two terms terms' cell) (hq : q < 4) :
    planarMetric terms' cell q = planarMetric terms cell q :=
  Sym2.toList_inj (h.components_eq hq)

theorem Agree.solidMetric_eq (h : Agree .three terms terms' cell) (hq : q < 8) :
    solidMetric terms' cell q = solidMetric terms cell q :=
  Sym3.toList_inj (h.components_eq hq)

/-- Two nodes of an element are corners of one of its sub-cells. -/
def Meet (dim : Dimension) (order cell m n : Nat) : Prop :=
  ∃ v ∈ Shape.vertices dim, ∃ w ∈ Shape.vertices dim,
    cornerNode dim order cell v = m ∧ cornerNode dim order cell w = n

end Kernel

namespace Stencil.Planar

/-- Two nodes are corners of every sub-cell of their support. -/
theorem meet_of_mem_support {order : Nat} (horder : 0 < order) {i j : Node} {s : Sample}
    (h : s ∈ support order i j) :
    s.cell order < order ^ 2 ∧ s.point < 4 ∧
      Kernel.Meet .two order (s.cell order) (i.number order) (j.number order) := by
  obtain ⟨hkx, hky, hqx, hqy⟩ := mem_support.mp h
  obtain ⟨hkx, hix, hjx⟩ := (Hat.mem_sharedCells horder).mp hkx
  obtain ⟨hky, hiy, hjy⟩ := (Hat.mem_sharedCells horder).mp hky
  have hcell : s.cell order = s.ky * order + s.kx := by rw [Sample.cell, Nat.add_comm]
  refine ⟨?_, ?_, ?_⟩
  · rw [hcell, pow_two]
    exact Lattice.place_lt hky hkx
  · rw [Sample.point]
    omega
  · simp only [Kernel.Meet, Shape.exists_mem_vertices_two, hcell, cornerNode_eq hkx hky,
      Node.number]
    refine ⟨i.x - s.kx, by omega, i.y - s.ky, by omega, j.x - s.kx, by omega, j.y - s.ky,
      by omega, ?_, ?_⟩
    · rw [Nat.add_sub_cancel' hix.1, Nat.add_sub_cancel' hiy.1]
    · rw [Nat.add_sub_cancel' hjx.1, Nat.add_sub_cancel' hjy.1]

variable [Scalar α]

theorem coupling_congr {order : Nat} {metric metric' : Nat → Nat → Sym2 α} {i j : Node}
    (h : ∀ s ∈ support order i j,
      metric' (s.cell order) s.point = metric (s.cell order) s.point) :
    coupling order metric' i j = coupling order metric i j :=
  List.foldl_ext _ _ _ fun acc s hs => by rw [h s hs]

theorem contributed_congr {order : Nat} (horder : 0 < order)
    {metric metric' : Nat → Nat → Sym2 α} {f : Nat → Nat} {i j : Nat}
    (h : ∀ k < order ^ 2, (∃ m n, Kernel.Meet .two order k m n ∧ f m = i ∧ f n = j) →
      ∀ q < 4, metric' k q = metric k q) :
    contributed ((triplets order metric').map (·.relabel f)) i j =
      contributed ((triplets order metric).map (·.relabel f)) i j := by
  rw [contributed_eq_map, contributed_eq_map]
  refine List.map_congr_left fun p hp => coupling_congr fun s hs => ?_
  obtain ⟨-, hgoes⟩ := List.mem_filter.mp hp
  obtain ⟨hi, hj⟩ := of_decide_eq_true hgoes
  obtain ⟨hcell, hpoint, hmeet⟩ := meet_of_mem_support horder hs
  exact h _ hcell ⟨_, _, hmeet, hi, hj⟩ _ hpoint

end Stencil.Planar

namespace Stencil.Solid

variable [Scalar α]

def cellTriplets (order : Nat) (metric : Nat → Nat → Sym3 α) (k : Cell) : List (Triplet α) :=
  (cornerPairs.zip (localMatrix ((List.range 8).map (metric (k.number order))) gradients)).map
    fun ((i, j), value) => ⟨k.node order i, k.node order j, value⟩

theorem triplets_eq (order : Nat) (metric : Nat → Nat → Sym3 α) :
    triplets order metric = (cells order).flatMap (cellTriplets order metric) := rfl

theorem meet_of_mem_cellTriplets {order : Nat} {metric : Nat → Nat → Sym3 α} {k : Cell}
    (hk : k ∈ cells order) {t : Triplet α} (ht : t ∈ cellTriplets order metric k) :
    Kernel.Meet .three order (k.number order) t.row t.col := by
  obtain ⟨hx, hy, hz⟩ := mem_cells.mp hk
  obtain ⟨⟨⟨i, j⟩, value⟩, hp, rfl⟩ := List.mem_map.mp ht
  obtain ⟨hj, hi⟩ : j ∈ corners ∧ i ∈ corners := by
    simpa [cornerPairs] using (List.of_mem_zip hp).1
  refine exists_mem_vertices.mpr ⟨i, hi, exists_mem_vertices.mpr ⟨j, hj, ?_⟩⟩
  rw [number_eq, ← node_eq hx hy hz, ← node_eq hx hy hz]
  exact ⟨rfl, rfl⟩

theorem contributed_congr {order : Nat} {metric metric' : Nat → Nat → Sym3 α} {f : Nat → Nat}
    {i j : Nat}
    (h : ∀ k < order ^ 3, (∃ m n, Kernel.Meet .three order k m n ∧ f m = i ∧ f n = j) →
      ∀ q < 8, metric' k q = metric k q) :
    contributed ((triplets order metric').map (·.relabel f)) i j =
      contributed ((triplets order metric).map (·.relabel f)) i j := by
  rw [triplets_eq, triplets_eq, List.map_flatMap, List.map_flatMap, contributed_flatMap,
    contributed_flatMap]
  refine List.flatMap_congr fun k hk => ?_
  by_cases hmeet : ∃ m n, Kernel.Meet .three order (k.number order) m n ∧ f m = i ∧ f n = j
  · have hmetric : (List.range 8).map (metric' (k.number order)) =
        (List.range 8).map (metric (k.number order)) :=
      List.map_congr_left fun q hq => h _ (number_lt hk) hmeet q (List.mem_range.mp hq)
    rw [cellTriplets, hmetric, cellTriplets]
  · have hnone (metric : Nat → Nat → Sym3 α) :
        contributed ((cellTriplets order metric k).map (·.relabel f)) i j = [] := by
      rw [contributed, List.map_eq_nil_iff, List.filter_eq_nil_iff]
      rintro t ht hgoes
      obtain ⟨u, hu, rfl⟩ := List.mem_map.mp ht
      exact hmeet ⟨_, _, meet_of_mem_cellTriplets hk hu, of_decide_eq_true hgoes⟩
    rw [hnone, hnone]

end Stencil.Solid

/-- An element contributes the same values to an entry when its metric terms agree on the sub-cells
that have nodes of the row and of the column as corners. -/
theorem Kernel.contributed_congr [Scalar α] {dim : Dimension} {order : Nat} (horder : 0 < order)
    {terms terms' : Array α} {f : Nat → Nat} {i j : Nat}
    (h : ∀ k < order ^ dim.value, (∃ m n, Meet dim order k m n ∧ f m = i ∧ f n = j) →
      Agree dim terms terms' k) :
    contributed ((nodeTriplets dim order terms').map (·.relabel f)) i j =
      contributed ((nodeTriplets dim order terms).map (·.relabel f)) i j := by
  cases dim with
  | two =>
    exact Stencil.Planar.contributed_congr horder fun k hk hmeet q hq =>
      (h k hk hmeet).planarMetric_eq hq
  | three =>
    exact Stencil.Solid.contributed_congr fun k hk hmeet q hq =>
      (h k hk hmeet).solidMetric_eq hq

/-! ### One sub-cell -/

namespace Refinement

variable [Scalar α] {r r' : Refinement α} {dim : Dimension} {options : Options α}

theorem pointTerms_congr {s : Nat} (hvertices : r'.vertices s = r.vertices s)
    (hembedding : r'.embedding s = r.embedding s) (hfactors : r'.factors = r.factors) (q : Nat) :
    r'.pointTerms dim options s q = r.pointTerms dim options s q := by
  have hplanar (cell : Quadrilateral α) (ξ : Vec2 α) :
      r'.planarJacobian options cell s q ξ = r.planarJacobian options cell s q ξ := by
    rw [planarJacobian, hfactors, planarJacobian]
  cases dim with
  | two => simp only [pointTerms, quadrilateral, hvertices, hembedding, hplanar]
  | three => simp only [pointTerms, hexahedron, hvertices, hembedding]

theorem subcellTerms_congr {source source' : JacobianSource α} (hr : r.dim = dim.value)
    (hr' : r'.dim = dim.value) (hsource : r.jacobianSource dim options = .ok source)
    (hsource' : r'.jacobianSource dim options = .ok source') {s : Nat} (hs : s < r.subcells)
    (hs' : s < r'.subcells) (hvertices : r'.vertices s = r.vertices s)
    (hembedding : r'.embedding s = r.embedding s) (hfactors : r'.factors = r.factors) :
    r'.subcellTerms dim source' (r'.embedding s).parent s =
      r.subcellTerms dim source (r.embedding s).parent s := by
  rw [subcellTerms_eq hsource hr hs, subcellTerms_eq hsource' hr' hs']
  congr 2
  funext q
  exact pointTerms_congr hvertices hembedding hfactors q

end Refinement

/-! ### The matrix -/

namespace Assembly

variable [Scalar α] {r r' : Refinement α} {space : Space} {essential : List Nat}
  {options : Options α} {dim dim' : Dimension} {source source' : JacobianSource α}
  {m m' : MetricArray α} {a a' : Csr α}

/-- Two assemblies over the same places hold the same value in an entry whose row and column are
together only at corners of sub-cells with the same vertices. -/
theorem Assembled.entry?_congr (h : Assembled r space essential options dim source m a)
    (h' : Assembled r' space essential options dim' source' m' a')
    (hsubcells : r'.subcells = r.subcells)
    (hembedding : ∀ s < r.subcells, r'.embedding s = r.embedding s)
    (hfactors : r'.factors = r.factors) {i j : Nat}
    (hvertices : ∀ s < r.subcells, ∀ v ∈ Shape.vertices dim, ∀ w ∈ Shape.vertices dim,
      r.cornerDof space dim s v = i → r.cornerDof space dim s w = j →
        r'.vertices s = r.vertices s) :
    a'.entry? i j = a.entry? i j := by
  obtain rfl : dim = dim' :=
    Dimension.eq_of_value_eq (h.checks.space_dim.symm.trans h'.checks.space_dim)
  have helement : ∀ e ∈ List.range space.elements,
      contributed (space.elementTriplets dim m' e) i j =
        contributed (space.elementTriplets dim m e) i j := by
    intro e he
    refine Kernel.contributed_congr h.checks.order_pos fun k hk hmeet x hx => ?_
    obtain ⟨_, _, ⟨v, hv, w, hw, rfl, rfl⟩, hi, hj⟩ := hmeet
    -- the place of the sub-cell is taken by one sub-cell of both refinements
    obtain ⟨s, hs, hplace⟩ :=
      h.evaluated.covers.exists_embedding e (List.mem_range.mp he) k hk
    have hs' : s < r'.subcells := hsubcells ▸ hs
    have hsame := hvertices s hs v hv w hw (by rw [Refinement.cornerDof, hplace]; exact hi)
      (by rw [Refinement.cornerDof, hplace]; exact hj)
    obtain ⟨terms, hterms, hstored⟩ := h.evaluated.stored s hs
    obtain ⟨terms', hterms', hstored'⟩ := h'.evaluated.stored s hs'
    rw [Refinement.subcellTerms_congr h.evaluated.dim_eq h'.evaluated.dim_eq h.source_eq
      h'.source_eq hs hs' hsame (hembedding s hs) hfactors, hterms, Except.ok.injEq] at hterms'
    subst hterms'
    have hat := hstored x hx
    have hat' := hstored' x hx
    rw [hplace] at hat
    rw [hembedding s hs, hplace] at hat'
    exact hat'.trans hat.symm
  have hsum : contributed (space.allTriplets dim m') i j =
      contributed (space.allTriplets dim m) i j := by
    rw [Space.allTriplets, contributed_flatMap, Space.allTriplets, contributed_flatMap,
      List.flatMap_congr helement]
  rw [h.entry?_eq, h'.entry?_eq, hsum]

end Assembly

/-! ### Moved nodes -/

namespace BoxMesh

/-- The same mesh with other positions for some nodes. -/
structure MovedOn (S : Set Nat) (m m' : BoxMesh α) : Prop where
  dim_eq : m'.dim = m.dim
  elements_eq : m'.elements = m.elements
  order_eq : m'.order = m.order
  basis_eq : m'.basis = m.basis
  position_eq : ∀ n, n ∉ S → m'.positions[n]? = m.positions[n]?

namespace MovedOn

variable {S : Set Nat} {m m' : BoxMesh α}

theorem cells_eq (h : m.MovedOn S m') : m'.cells = m.cells := by
  rw [cells, h.elements_eq, h.order_eq, cells]

theorem lattice_eq (h : m.MovedOn S m') : m'.lattice = m.lattice := by
  rw [lattice, h.elements_eq, h.order_eq, lattice]

theorem cellCoordinates_eq (h : m.MovedOn S m') (s : Nat) :
    m'.cellCoordinates s = m.cellCoordinates s := by
  rw [cellCoordinates, h.cells_eq, cellCoordinates]

theorem embedding_eq (h : m.MovedOn S m') (s : Nat) : m'.embedding s = m.embedding s := by
  simp only [embedding, h.cellCoordinates_eq, h.order_eq, h.elements_eq]

theorem subcellNodes_eq (h : m.MovedOn S m') (s : Nat) : m'.subcellNodes s = m.subcellNodes s := by
  simp only [subcellNodes, h.cellCoordinates_eq, h.dim_eq, h.lattice_eq]

theorem space_eq (h : m.MovedOn S m') : m'.space = m.space := by
  have hsize : m'.positions.size = m.positions.size := by
    rw [m'.size_positions, m.size_positions, h.elements_eq, h.order_eq]
  have hdofs : m'.elementDofs = m.elementDofs := by
    funext grid element
    have hnode : m'.elementNode element = m.elementNode element := by
      funext node
      rw [elementNode, h.order_eq, h.lattice_eq, elementNode]
    rw [elementDofs, hnode, elementDofs]
  simp only [space, nativeGrid, h.dim_eq, h.elements_eq, h.basis_eq, h.order_eq, hsize, hdofs]

theorem vertices_eq (h : m.MovedOn S m') {s : Nat} (hs : ∀ n ∈ S, n ∉ m.subcellNodes s) :
    m'.vertices s = m.vertices s := by
  rw [vertices, h.subcellNodes_eq, vertices]
  refine List.flatMap_congr fun n hn => ?_
  rw [Array.getD_eq_getD_getElem?, Array.getD_eq_getD_getElem?,
    h.position_eq n fun hS => hs n hS hn]

end MovedOn

/-- Two meshes that differ in the positions of some nodes have matrices with the same pattern and
with the same value in every entry whose row and column share no sub-cell with one of these
nodes. -/
theorem assemble_local [Scalar α] {S : Set Nat} {m m' : BoxMesh α} (hmoved : m.MovedOn S m')
    (hfactors : m.factors = none) (hfactors' : m'.factors = none)
    {schedule schedule' : Schedule} {essential : List Nat} {options : Options α} {a a' : Csr α}
    (h : (Assembly.assemble schedule m.refinement m.space essential options).result = .ok a)
    (h' : (Assembly.assemble schedule' m'.refinement m'.space essential options).result =
      .ok a') :
    a'.pattern = a.pattern ∧
      ∀ i j, (∀ s < m.cells.prod, i ∈ m.subcellNodes s → j ∈ m.subcellNodes s →
          ∀ n ∈ S, n ∉ m.subcellNodes s) →
        a'.entry? i j = a.entry? i j := by
  obtain ⟨dim, source, terms, hm⟩ := Assembly.assemble_spec h
  obtain ⟨dim', source', terms', hm'⟩ := Assembly.assemble_spec h'
  refine ⟨pattern_eq_pattern hm hmoved.elements_eq hmoved.order_eq hm', fun i j hapart => ?_⟩
  obtain rfl : m.dim = dim := Dimension.eq_of_value_eq hm.checks.space_dim
  rw [hmoved.space_eq] at hm'
  refine hm.entry?_congr hm' (congrArg List.prod hmoved.cells_eq)
    (fun s _ => hmoved.embedding_eq s) (hfactors'.trans hfactors.symm)
    fun s hs v hv w hw hi hj => ?_
  have hnodes := m.subcellNodes_eq hs
  refine hmoved.vertices_eq (hapart s hs ?_ ?_)
  · rw [hnodes, ← hi]
    exact List.mem_map_of_mem hv
  · rw [hnodes, ← hj]
    exact List.mem_map_of_mem hw

def straightSquares : BoxMesh ℚ :=
  { bentSquares with
    positions := #[[0, 0], [1, 0], [2, 0], [0, 1], [1, 1], [2, 1]]
    size_positions := rfl
    length_position := by decide }

/-- A corner of the second square moves: the coupling of the first square is kept, but not that of
two other corners of the second one. -/
theorem assemble_local_squares :
    ∃ a a', (Assembly.assemble .inOrder straightSquares.refinement straightSquares.space []
        (Options.standard.withParallel false)).result = .ok a ∧
      (Assembly.assemble .inOrder bentSquares.refinement bentSquares.space []
        (Options.standard.withParallel false)).result = .ok a' ∧
      a'.pattern = a.pattern ∧ a'.entry? 0 4 = a.entry? 0 4 ∧ a'.entry? 1 4 ≠ a.entry? 1 4 := by
  have hmoved : straightSquares.MovedOn {5} bentSquares :=
    { dim_eq := rfl
      elements_eq := rfl
      order_eq := rfl
      basis_eq := rfl
      position_eq := by
        intro n hn
        match n with
        | 0 | 1 | 2 | 3 | 4 => rfl
        | 5 => exact absurd rfl hn
        | n + 6 => rfl }
  have hstraight : (Assembly.assemble .inOrder straightSquares.refinement straightSquares.space []
      (Options.standard.withParallel false)).result.isOk = true := by
    rw [straightSquares.space_of_bilinear rfl rfl]
    decide +kernel
  have hbent : (Assembly.assemble .inOrder bentSquares.refinement bentSquares.space []
      (Options.standard.withParallel false)).result.isOk = true := by
    rw [bentSquares.space_of_bilinear rfl rfl]
    decide +kernel
  have hdiffer : (Assembly.assemble .inOrder bentSquares.refinement bentSquares.space []
        (Options.standard.withParallel false)).result.map (fun a => a.entry? 1 4) ≠
      (Assembly.assemble .inOrder straightSquares.refinement straightSquares.space []
        (Options.standard.withParallel false)).result.map fun a => a.entry? 1 4 := by
    rw [straightSquares.space_of_bilinear rfl rfl, bentSquares.space_of_bilinear rfl rfl]
    decide +kernel
  obtain ⟨a, ha⟩ := exists_of_isOk hstraight
  obtain ⟨a', ha'⟩ := exists_of_isOk hbent
  obtain ⟨hpattern, hentry⟩ := assemble_local hmoved rfl rfl ha ha'
  refine ⟨a, a', ha, ha', hpattern, hentry 0 4 ?_, fun heq => hdiffer ?_⟩
  · show ∀ s < 2, 0 ∈ straightSquares.subcellNodes s → 4 ∈ straightSquares.subcellNodes s →
      ∀ n ∈ ({5} : Set Nat), n ∉ straightSquares.subcellNodes s
    simp only [Set.mem_singleton_iff, forall_eq]
    decide
  · rw [ha, ha']
    exact congrArg Except.ok heq

end BoxMesh

end LowOrderRefinement
