import LowOrderRefinement.Proofs.BoxMesh.MeshNumbering
import LowOrderRefinement.Proofs.Invariance.SubcellNumbering
import LowOrderRefinement.Proofs.Invariance.Symmetry

/-! Independence of numbering. Sub-cells are found through their places, nodes through
the ordering of the space, and the contributions to an entry are added in an order
that does not depend on its row and column. So other numbers for the sub-cells, or
for the nodes within the elements, lead to the same matrix, and other numbers for
the degrees of freedom move its entries without changing a value, even where
addition is not associative. -/

namespace LowOrderRefinement

variable {α : Type}

/-! ### Entries that have moved -/

namespace Csr

theorem nnz_eq_of_pattern {m n : Csr α} (h : m.Ordered) (h' : n.Ordered) {π : Equiv.Perm Nat}
    (hmem : ∀ i j, (π i, π j) ∈ n.pattern ↔ (i, j) ∈ m.pattern) : n.nnz = m.nnz := by
  have hperm : (m.pattern.map (Prod.map π π)).Perm n.pattern := by
    rw [List.perm_ext_iff_of_nodup
      (h.nodup_pattern.map (π.injective.prodMap π.injective)) h'.nodup_pattern]
    rintro ⟨i, j⟩
    rw [List.mem_map]
    constructor
    · rintro ⟨⟨k, l⟩, hkl, heq⟩
      obtain ⟨rfl, rfl⟩ := Prod.mk.inj heq
      exact (hmem k l).mpr hkl
    · intro hij
      refine ⟨(π.symm i, π.symm j), (hmem _ _).mp ?_, by simp⟩
      rwa [Equiv.apply_symm_apply, Equiv.apply_symm_apply]
  rw [nnz_eq, nnz_eq, ← hperm.length_eq, List.length_map]

variable {nrows ncols nrows' ncols' : Nat} {ts : List (Triplet α)} {a a' : Csr α}
  {π : Equiv.Perm Nat}

theorem Totals.entry?_relabel [Scalar α] (h : Totals nrows ncols ts ∅ a)
    (h' : Totals nrows' ncols' (ts.map (·.relabel π)) ∅ a') (i j : Nat) :
    a'.entry? (π i) (π j) = a.entry? i j := by
  have hmem : (π i, π j) ∈ a'.pattern ↔ (i, j) ∈ a.pattern := by
    rw [h'.mem_pattern, h.mem_pattern, exists_mem_relabel π.injective]
  by_cases hj : (i, j) ∈ a.pattern
  · rw [h'.entry _ _ (hmem.mpr hj), h.entry i j hj, contributed_relabel π.injective, if_neg (by simp),
      if_neg (by simp)]
  · rw [entry?_eq_none hj, entry?_eq_none fun hj' => hj (hmem.mp hj')]

end Csr

namespace Builder

variable [Scalar α] {b c : Builder α} {convert : Conversion α} {π : Equiv.Perm Nat}
  {essential : List Nat} {a : Csr α}

theorem entry?_clear_relabel {x y : Csr α} (hπ : Permutes π (min x.nrows x.ncols))
    (hrows : y.nrows = x.nrows) (hcols : y.ncols = x.ncols)
    (h : ∀ i j, y.entry? (π i) (π j) = x.entry? i j) (i j : Nat) :
    Csr.entry? (y.clear fun k => (y.essentialTable (essential.map π)).getD k false) (π i) (π j) =
      Csr.entry? (x.clear fun k => (x.essentialTable essential).getD k false) i j := by
  have htable (k : Nat) : (y.essentialTable (essential.map π)).getD (π k) false =
      (x.essentialTable essential).getD k false := by
    rw [Csr.getD_essentialTable, Csr.getD_essentialTable, hrows, hcols]
    exact decide_eq_decide.mpr (and_congr (List.mem_map_of_injective π.injective) (hπ k))
  rw [Csr.entry?_clear, Csr.entry?_clear, h, htable, htable]
  congr 1
  funext v
  exact if_congr (by rw [π.injective.ne_iff]) rfl rfl

/-- Contributions at renamed places are converted to a matrix that stores as many entries at
renamed places, with the same values if they are summed in the order of arrival. -/
theorem exists_finalizeWith_relabel (hπ : Permutes π (min c.nrows c.ncols))
    (hrows : b.nrows = c.nrows) (hcols : b.ncols = c.ncols)
    (hentries : b.entries.toList = c.entries.toList.map (·.relabel π))
    (h : (c.finalizeWith convert essential).result = .ok a) :
    ∃ a', (b.finalizeWith convert (essential.map π)).result = .ok a' ∧
      (convert.Sums → a'.nnz = a.nnz ∧
        ∀ i j, (π i, π j) ∈ a'.pattern ↔ (i, j) ∈ a.pattern) ∧
      (convert.InOrder → ∀ i j, a'.entry? (π i) (π j) = a.entry? i j) := by
  obtain ⟨hreserve, ha⟩ := Assembly.finalizeWith_eq_ok.mp h
  rw [← hrows, ← hcols] at hreserve
  obtain ⟨a', ha'⟩ : ∃ a', (b.finalizeWith convert (essential.map π)).result = .ok a' :=
    ⟨_, Assembly.finalizeWith_eq_ok.mpr ⟨hreserve, rfl⟩⟩
  refine ⟨a', ha', fun hconvert => ?_, fun hconvert => ?_⟩
  · have hmem (i j : Nat) : (π i, π j) ∈ a'.pattern ↔ (i, j) ∈ a.pattern := by
      rw [Assembly.mem_pattern_of_finalizeWith hconvert ha',
        Assembly.mem_pattern_of_finalizeWith hconvert h, hentries, exists_mem_relabel π.injective]
    exact ⟨Csr.nnz_eq_of_pattern (Assembly.ordered_of_finalizeWith hconvert h)
      (Assembly.ordered_of_finalizeWith hconvert ha') hmem, hmem⟩
  · have htotals := c.totals_of_inOrder hconvert
    have htotals' := b.totals_of_inOrder hconvert
    rw [hentries] at htotals'
    rw [ha, (Assembly.finalizeWith_eq_ok.mp ha').2]
    apply entry?_clear_relabel
    · rwa [htotals.nrows_eq, htotals.ncols_eq]
    · rw [htotals'.nrows_eq, htotals.nrows_eq, hrows]
    · rw [htotals'.ncols_eq, htotals.ncols_eq, hcols]
    · exact htotals.entry?_relabel htotals'

end Builder

/-! ### Nodes of an element -/

namespace Kernel

theorem cornerNode_lt {dim : Dimension} {order k : Nat} (hk : k < order ^ dim.value)
    {corner : List Nat} (hcorner : corner ∈ Shape.vertices dim) :
    cornerNode dim order k corner < (order + 1) ^ dim.value := by
  have hprod : 0 < (List.replicate dim.value order).prod := by
    rw [List.prod_replicate]
    exact Nat.zero_lt_of_lt hk
  have hin := Lattice.inBox_shift (Lattice.inBox_unflatten (k := k) hprod)
    ((Shape.mem_vertices_iff List.length_replicate).mp hcorner)
  rw [Lattice.nodeShape, List.map_replicate] at hin
  exact (Lattice.flatten_lt hin).trans_eq (List.prod_replicate _ _)

variable [Scalar α]

theorem nodeTriplets_lt {dim : Dimension} {order : Nat} (horder : 0 < order) {terms : Array α}
    {t : Triplet α} (ht : t ∈ nodeTriplets dim order terms) :
    t.row < (order + 1) ^ dim.value ∧ t.col < (order + 1) ^ dim.value := by
  obtain ⟨k, hk, v, hv, w, hw, hrow, hcol⟩ :=
    (exists_mem_nodeTriplets dim horder terms).mp ⟨t, ht, rfl, rfl⟩
  exact ⟨hrow ▸ cornerNode_lt hk hv, hcol ▸ cornerNode_lt hk hw⟩

end Kernel

namespace Space

/-! ### Another order within the elements -/

/-- Degrees of freedom in another order within every element: `σ l` is the new local number of the
node with number `l`. -/
structure Reordered (space : Space) (σ : Equiv.Perm Nat) (dofs : Nat → Array Nat) : Prop where
  permutes : Permutes σ ((space.order + 1) ^ space.dim)
  size_eq : ∀ e < space.elements, (dofs e).size = (space.dofs e).size
  getElem?_eq : ∀ e < space.elements, ∀ l < (space.order + 1) ^ space.dim,
    (dofs e)[σ l]? = (space.dofs e)[l]?

/-- The space whose elements list the given degrees of freedom, with its nodes found at their new
local numbers. -/
def reorder (space : Space) (σ : Nat → Nat) (dofs : Nat → Array Nat) : Space :=
  { space with dofs, ordering := space.ordering.map σ }

section Reorder

variable {space : Space} {σ : Equiv.Perm Nat} {dofs : Nat → Array Nat} {nodes e : Nat}

theorem Reordered.accepts (h : space.Reordered σ dofs)
    (hnodes : (space.order + 1) ^ space.dim = nodes) (he : e < space.elements)
    (haccepts : space.Accepts nodes e) : (space.reorder σ dofs).Accepts nodes e := by
  subst hnodes
  have hsize := (h.size_eq e he).trans haccepts.1
  refine ⟨hsize, fun dof hdof => ?_⟩
  have hmem : dof ∈ dofs e := hdof
  obtain ⟨l', hl', rfl⟩ := Array.mem_iff_getElem.mp hmem
  have hold := h.getElem?_eq e he (σ.symm l') (h.permutes.symm_lt (hsize ▸ hl'))
  rw [Equiv.apply_symm_apply, Array.getElem?_eq_getElem hl'] at hold
  exact haccepts.2 _ (Array.mem_of_getElem? hold.symm)

theorem Reordered.dofAt_eq (h : space.Reordered σ dofs)
    (hordering : ∀ x ∈ space.ordering, x < (space.order + 1) ^ space.dim)
    (he : e < space.elements) {node : Nat} (hnode : node < space.ordering.size) :
    (space.reorder σ dofs).dofAt e node = space.dofAt e node := by
  have hlt := hordering _ (Array.getElem_mem hnode)
  have hget := h.getElem?_eq e he _ hlt
  simp only [dofAt, reorder, Array.getD_eq_getD_getElem?, Array.getElem?_map,
    Array.getElem?_eq_getElem hnode, Option.map_some, Option.getD_some, hget]

end Reorder

/-! ### Other numbers for the degrees of freedom -/

def relabel (space : Space) (π : Nat → Nat) : Space :=
  { space with dofs := fun e => (space.dofs e).map π }

section Relabel

variable {space : Space} {π : Equiv.Perm Nat} {nodes e : Nat}

theorem accepts_relabel (h : Permutes π space.numDofs) (haccepts : space.Accepts nodes e) :
    (space.relabel π).Accepts nodes e := by
  refine ⟨Array.size_map.trans haccepts.1, fun dof hdof => ?_⟩
  obtain ⟨old, hold, rfl⟩ := Array.mem_map.mp hdof
  exact (h old).mpr (haccepts.2 old hold)

theorem dofAt_relabel (haccepts : space.Accepts nodes e) (hnodes : 0 < nodes)
    (hordering : ∀ x ∈ space.ordering, x < nodes) (node : Nat) :
    (space.relabel π).dofAt e node = π (space.dofAt e node) := by
  have hplace := place_lt haccepts hnodes hordering node
  simp only [dofAt, relabel, Array.getD_eq_getD_getElem?] at hplace ⊢
  rw [Array.getElem?_map, Array.getElem?_eq_getElem hplace, Option.map_some, Option.getD_some,
    Option.getD_some]

end Relabel

end Space

/-! ### Renumbered assemblies -/

namespace Assembly

variable [Scalar α]

section Matrices

variable {r : Refinement α} {space space' : Space} {options : Options α} {dim : Dimension}
  {source source' : JacobianSource α} {m m' : MetricArray α}

/-- The terms of an element do not depend on the space or the schedule. -/
theorem Contributing.terms_eq (h : Contributing r space options dim source m)
    (h' : Contributing r space' options dim source' m')
    (horder : space'.order = space.order) (helements : space'.elements = space.elements) {e : Nat}
    (he : e < space.elements) : m'.terms e = m.terms e := by
  have heval' := h'.evaluated
  rw [horder, helements] at heval'
  obtain rfl := Except.ok.inj (h.source_eq.symm.trans h'.source_eq)
  refine h.evaluated.terms_eq heval' (fun s hs => ?_) he
  exact ⟨s, hs, rfl, fun parent terms hterms => hterms⟩

end Matrices

variable {r : Refinement α} {space : Space} {options : Options α} {dim : Dimension}
  {source : JacobianSource α} {m : MetricArray α}

/-- Another ordering and other degrees of freedom are admissible as long as the elements accept
them. -/
theorem Admissible.of_accepts (h : Admissible r space options dim) {dofs : Nat → Array Nat}
    {ordering : Array Nat}
    (hperm : ordering.toList.Perm (List.range ((space.order + 1) ^ dim.value)))
    (haccepts : ∀ e < space.elements,
      Space.Accepts { space with dofs, ordering } ((space.order + 1) ^ dim.value) e) :
    Admissible r { space with dofs, ordering } options dim where
  configured :=
    { h.configured with checks := { h.configured.checks with ordering_perm := hperm } }
  storable := { h.storable with }
  regular := h.regular
  accepts := haccepts

theorem collected_congr {space' : Space} {m' : MetricArray α}
    (hdofs : space'.numDofs = space.numDofs)
    (htriplets : space'.allTriplets dim m' = space.allTriplets dim m) :
    collected space' dim m' = collected space dim m := by
  rw [collected, collected, hdofs, htriplets]

/-- Renumbered sub-cells lead to the same contributions. -/
theorem accumulate_of_renumbered {τ : Equiv.Perm Nat} {r' : Refinement α} (schedule : Schedule)
    (h : Contributing r space options dim source m)
    (hadmissible : Admissible r space options dim) (hr : r.Renumbered τ r') :
    (accumulate schedule r' space options).result = .ok (collected space dim m) := by
  obtain ⟨source', m', hb, h'⟩ := (hadmissible.of_renumbered hr).exists_collected schedule
  have hterms (e : Nat) (he : e < space.elements) : m'.terms e = m.terms e := by
    refine h.evaluated.terms_eq h'.evaluated (fun s hs => ?_) he
    refine ⟨τ s, hr.lt hs, hr.embedding_eq s hs, fun parent terms hterms => ?_⟩
    refine hr.subcellTerms_eq_ok h.checks.refinement_dim (fun hdim hplanar f hf => ?_) h.source_eq
      h'.source_eq hs hterms
    exact (hadmissible.configured.factors_fit hdim hplanar f hf).2
  have htriplets : space.allTriplets dim m' = space.allTriplets dim m := by
    refine List.flatMap_congr fun e he => ?_
    rw [Space.elementTriplets, Space.elementTriplets, hterms e (List.mem_range.mp he)]
  rw [hb, collected_congr rfl htriplets]

/-- Renumbered nodes within the elements lead to the same contributions. -/
theorem accumulate_reorder {σ : Equiv.Perm Nat} {dofs : Nat → Array Nat} (schedule : Schedule)
    (h : Contributing r space options dim source m)
    (hadmissible : Admissible r space options dim) (hσ : space.Reordered σ dofs) :
    (accumulate schedule r (space.reorder σ dofs) options).result =
      .ok (collected space dim m) := by
  have hnodes : (space.order + 1) ^ space.dim = (space.order + 1) ^ dim.value := by
    rw [h.checks.space_dim]
  have hperm : (space.ordering.map σ).toList.Perm
      (List.range ((space.order + 1) ^ dim.value)) := by
    rw [Array.toList_map]
    exact (h.checks.ordering_perm.map σ).trans (hnodes ▸ hσ.permutes).perm_map_range
  have hadmissible' : Admissible r (space.reorder σ dofs) options dim :=
    hadmissible.of_accepts hperm fun e he => hσ.accepts hnodes he (h.accepts e he)
  obtain ⟨source', m', hb, h'⟩ := hadmissible'.exists_collected schedule
  have htriplets : (space.reorder σ dofs).allTriplets dim m' = space.allTriplets dim m := by
    refine List.flatMap_congr fun e he => ?_
    have he := List.mem_range.mp he
    have hdof (node : Nat) (hnode : node < (space.order + 1) ^ dim.value) :
        (space.reorder σ dofs).dofAt e node = space.dofAt e node :=
      hσ.dofAt_eq (hnodes ▸ h.checks.ordering_lt) he (h.checks.size_ordering ▸ hnode)
    rw [Space.elementTriplets, Space.elementTriplets, h.terms_eq h' rfl rfl he]
    refine List.map_congr_left fun t ht => ?_
    obtain ⟨hrow, hcol⟩ := Kernel.nodeTriplets_lt h.checks.order_pos ht
    rw [Triplet.relabel, Triplet.relabel, hdof _ hrow, hdof _ hcol]
  exact hb.trans (congrArg Except.ok (collected_congr rfl htriplets))

/-- Renumbered degrees of freedom lead to the same contributions, in the same order, at renamed
places. -/
theorem exists_accumulate_relabel {π : Equiv.Perm Nat} (schedule : Schedule)
    (h : Contributing r space options dim source m)
    (hadmissible : Admissible r space options dim) (hπ : Permutes π space.numDofs) :
    ∃ b, (accumulate schedule r (space.relabel π) options).result = .ok b ∧
      b.nrows = space.numDofs ∧ b.ncols = space.numDofs ∧
      b.entries.toList = (collected space dim m).entries.toList.map (·.relabel π) := by
  have hadmissible' : Admissible r (space.relabel π) options dim :=
    hadmissible.of_accepts h.checks.ordering_perm fun e he =>
      Space.accepts_relabel hπ (h.accepts e he)
  obtain ⟨source', m', hb, h'⟩ := hadmissible'.exists_collected schedule
  refine ⟨_, hb, rfl, rfl, ?_⟩
  rw [h'.entries_collected, h.entries_collected, Space.allTriplets, Space.allTriplets,
    List.map_flatMap]
  refine List.flatMap_congr fun e he => ?_
  have he := List.mem_range.mp he
  have hdof : (space.relabel π).dofAt e = π ∘ space.dofAt e :=
    funext (Space.dofAt_relabel (h.accepts e he) (Nat.pow_pos (Nat.succ_pos _))
      h.checks.ordering_lt)
  rw [Space.elementTriplets, Space.elementTriplets, h.terms_eq h' rfl rfl he, List.map_map, hdof]
  rfl

/-- Jacobians of two rectangles of height one that are parallel to the axes, by their widths. -/
def rectangleFactors (v w : ℚ) : GeometricFactors ℚ where
  dim := .two
  subcells := 2
  layout := ⟨[4, 2, 2, 2], rfl⟩
  jacobians := #[v, v, v, v, 0, 0, 0, 0, 0, 0, 0, 0, 1, 1, 1, 1,
    w, w, w, w, 0, 0, 0, 0, 0, 0, 0, 0, 1, 1, 1, 1]
  shape_layout := rfl
  size_jacobians := rfl

/-- A unit square, and a rectangle of twice its width beside it. -/
def rectangles : Refinement ℚ :=
  .ofTable 2 #[⟨.quadrilateral, ⟨0, 0⟩, [0, 0, 1, 0, 1, 1, 0, 1]⟩,
    ⟨.quadrilateral, ⟨1, 0⟩, [1, 0, 3, 0, 3, 1, 1, 1]⟩] (some (rectangleFactors 1 2))

def swappedRectangles : Refinement ℚ :=
  .ofTable 2 #[⟨.quadrilateral, ⟨1, 0⟩, [1, 0, 3, 0, 3, 1, 1, 1]⟩,
    ⟨.quadrilateral, ⟨0, 0⟩, [0, 0, 1, 0, 1, 1, 0, 1]⟩] (some (rectangleFactors 2 1))

theorem renumbered_rectangles : rectangles.Renumbered (Equiv.swap 0 1) swappedRectangles where
  permutes := Permutes.swap (by decide) (by decide)
  dim_eq := rfl
  subcells_eq := rfl
  geometry_eq := by
    show ∀ s < 2, _
    decide
  embedding_eq := by
    show ∀ s < 2, _
    decide
  vertices_eq := by
    show ∀ s < 2, _
    decide +kernel
  factors_rel := .some
    { dim_eq := rfl
      subcells_eq := rfl
      entry_eq := fun _ => by
        show ∀ s < 2, ∀ point < 4, ∀ row < 2, ∀ column < 2, _
        decide +kernel }

def turnedDofs (e : Nat) : Array Nat := #[#[0, 3, 4, 1], #[1, 4, 5, 2]].getD e #[]

end Assembly

end LowOrderRefinement
