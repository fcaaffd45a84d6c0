import LowOrderRefinement.Proofs.Assembly.Assembled
import LowOrderRefinement.Proofs.Assembly.TotalEnergy
import LowOrderRefinement.Proofs.BoxMesh.MeshNumbering
import LowOrderRefinement.Proofs.Stencil.Neighbourhoods
import LowOrderRefinement.Proofs.Sparse.StoredPlaces

/-! The pattern of an assembled matrix. Two degrees of freedom are coupled by a stored entry
exactly when they lie at corners of a common sub-cell, whatever the metric. On a box
mesh with elements along every axis these are the pairs of nodes that differ by at
most one along every axis, also across the borders of elements; without elements
nothing is stored. -/

namespace LowOrderRefinement

/-! ### Near points -/

namespace Lattice

/-- Whether the coordinates of two points differ by at most one along every axis. -/
def near : List Nat → List Nat → Bool
  | [], [] => true
  | i :: is, j :: js => decide (i ≤ j + 1 ∧ j ≤ i + 1) && near is js
  | _, _ => false

def nearPairs (shape : List Nat) : List (Nat × Nat) :=
  (List.range shape.prod).flatMap fun i =>
    ((List.range shape.prod).filter fun j => near (unflatten i shape) (unflatten j shape)).map
      fun j => (i, j)

theorem near_of_corners {cell v w cells : List Nat} (hcell : inBox cell cells)
    (hv : IsCorner v cells) (hw : IsCorner w cells) : near (shift cell v) (shift cell w) := by
  induction cells generalizing cell v w with
  | nil => cases cell <;> simp_all [inBox, shift, near]
  | cons n cells ih =>
    cases cell with
    | nil => cases hcell
    | cons c cell =>
      cases v with
      | nil => cases hv
      | cons a v =>
        cases w with
        | nil => cases hw
        | cons b w =>
          simp only [IsCorner, List.map_cons, inBox, Bool.and_eq_true, decide_eq_true_eq]
            at hcell hv hw
          simp only [shift, List.zipWith_cons_cons, near, Bool.and_eq_true, decide_eq_true_eq]
          exact ⟨by omega, ih hcell.2 hv.2 hw.2⟩

/-- Near nodes of a box with cells along every axis are corners of a common cell. -/
theorem exists_corners_of_near {i j cells : List Nat} (hpos : ∀ n ∈ cells, 0 < n)
    (hi : inBox i (nodeShape cells)) (hj : inBox j (nodeShape cells)) (h : near i j) :
    ∃ cell, inBox cell cells ∧ ∃ v, IsCorner v cells ∧ ∃ w, IsCorner w cells ∧
      shift cell v = i ∧ shift cell w = j := by
  induction cells generalizing i j with
  | nil =>
    obtain rfl : i = [] := List.eq_nil_of_length_eq_zero (length_eq_of_inBox hi)
    obtain rfl : j = [] := List.eq_nil_of_length_eq_zero (length_eq_of_inBox hj)
    exact ⟨[], rfl, [], rfl, [], rfl, rfl, rfl⟩
  | cons n cells ih =>
    obtain ⟨hn, hcells⟩ := List.forall_mem_cons.mp hpos
    cases i with
    | nil => cases hi
    | cons x i =>
      cases j with
      | nil => cases hj
      | cons y j =>
        simp only [nodeShape, List.map_cons, inBox, near, Bool.and_eq_true, decide_eq_true_eq]
          at hi hj h
        obtain ⟨c, hc, a, ha, b, hb, hx, hy⟩ :=
          (Hat.exists_ends_iff hn).mpr ⟨hi.1, hj.1, h.1⟩
        obtain ⟨cell, hcell, v, hv, w, hw, rfl, rfl⟩ := ih hcells hi.2 hj.2 h.2
        refine ⟨c :: cell, ?_, a :: v, ?_, b :: w, ?_, ?_, ?_⟩
        · simp [inBox, hc, hcell]
        · simpa [IsCorner, inBox, ha] using hv
        · simpa [IsCorner, inBox, hb] using hw
        · rw [hx]
          rfl
        · rw [hy]
          rfl

end Lattice

/-! ### Any refinement -/

namespace Assembly

variable {α : Type} [Scalar α] {r : Refinement α} {space : Space} {essential : List Nat}
  {options : Options α} {dim : Dimension} {source : JacobianSource α} {m : MetricArray α}
  {a : Csr α}

/-- Something is contributed to an entry exactly when its row and column lie at corners of a common
sub-cell. -/
theorem Contributing.exists_mem_iff (h : Contributing r space options dim source m) {i j : Nat} :
    (∃ t ∈ space.allTriplets dim m, t.row = i ∧ t.col = j) ↔
      ∃ s < r.subcells, ∃ v ∈ Shape.vertices dim, ∃ w ∈ Shape.vertices dim,
        r.cornerDof space dim s v = i ∧ r.cornerDof space dim s w = j := by
  constructor
  · rintro ⟨t, ht, rfl, rfl⟩
    obtain ⟨e, he, ht⟩ := List.mem_flatMap.mp ht
    obtain ⟨u, hu, rfl⟩ := List.mem_map.mp ht
    obtain ⟨k, hk, v, hv, w, hw, hrow, hcol⟩ :=
      (Kernel.exists_mem_nodeTriplets dim h.checks.order_pos (m.terms e)).mp ⟨u, hu, rfl, rfl⟩
    -- the place in the grid of the element is that of a sub-cell
    obtain ⟨s, hs, hembedding⟩ :=
      h.evaluated.covers.exists_embedding e (List.mem_range.mp he) k hk
    refine ⟨s, hs, v, hv, w, hw, ?_, ?_⟩
    · rw [Refinement.cornerDof, hembedding, hrow]
      rfl
    · rw [Refinement.cornerDof, hembedding, hcol]
      rfl
  · rintro ⟨s, hs, v, hv, w, hw, rfl, rfl⟩
    have hplaced := h.evaluated.covers.placed s hs
    obtain ⟨u, hu, hrow, hcol⟩ := (Kernel.exists_mem_nodeTriplets dim h.checks.order_pos
      (m.terms (r.embedding s).parent)).mpr ⟨_, hplaced.offset_lt, v, hv, w, hw, rfl, rfl⟩
    refine ⟨u.relabel (space.dofAt (r.embedding s).parent), List.mem_flatMap.mpr
      ⟨_, List.mem_range.mpr hplaced.parent_lt, List.mem_map_of_mem hu⟩, ?_, ?_⟩
    · exact congrArg (space.dofAt _) hrow
    · exact congrArg (space.dofAt _) hcol

/-- An entry is stored exactly when its row and column lie at corners of a common sub-cell. -/
theorem Assembled.mem_columns_iff (h : Assembled r space essential options dim source m a)
    {i j : Nat} :
    j ∈ a.columns i ↔ ∃ s < r.subcells, ∃ v ∈ Shape.vertices dim, ∃ w ∈ Shape.vertices dim,
      r.cornerDof space dim s v = i ∧ r.cornerDof space dim s w = j := by
  rw [h.matrix_eq, Csr.columns_clear,
    Csr.mem_columns_ofTriplets fun t ht => (h.allTriplets_lt t ht).1]
  exact h.exists_mem_iff

end Assembly

/-! ### Box meshes -/

namespace BoxMesh

variable {α : Type}

/-- With elements along every axis, the corners of a common sub-cell are the near nodes. -/
theorem exists_subcell_iff_near (m : BoxMesh α) (helements : ∀ n ∈ m.elements, 0 < n)
    {i j : Nat} :
    (∃ s < m.cells.prod, ∃ v ∈ Shape.vertices m.dim, ∃ w ∈ Shape.vertices m.dim,
        m.refinement.cornerDof m.space m.dim s v = i ∧
        m.refinement.cornerDof m.space m.dim s w = j) ↔
      i < m.lattice.prod ∧ j < m.lattice.prod ∧
        Lattice.near (Lattice.unflatten i m.lattice) (Lattice.unflatten j m.lattice) := by
  constructor
  · rintro ⟨s, hs, v, hv, w, hw, rfl, rfl⟩
    have hv := (Shape.mem_vertices_iff m.length_cells).mp hv
    have hw := (Shape.mem_vertices_iff m.length_cells).mp hw
    have hvnode := m.inBox_corner hs hv
    have hwnode := m.inBox_corner hs hw
    rw [m.cornerDof_eq hs hv, m.cornerDof_eq hs hw, Lattice.unflatten_flatten hvnode,
      Lattice.unflatten_flatten hwnode]
    exact ⟨Lattice.flatten_lt hvnode, Lattice.flatten_lt hwnode,
      Lattice.near_of_corners (m.inBox_cellCoordinates hs) hv hw⟩
  · rintro ⟨hi, hj, hnear⟩
    obtain ⟨cell, hcell, v, hv, w, hw, hvi, hwj⟩ := Lattice.exists_corners_of_near
      (m.cells_pos helements) (m.inBox_node hi) (m.inBox_node hj) hnear
    have hs := Lattice.flatten_lt hcell
    have hcoordinates : m.cellCoordinates (Lattice.flatten cell m.cells) = cell :=
      Lattice.unflatten_flatten hcell
    refine ⟨_, hs, v, (Shape.mem_vertices_iff m.length_cells).mpr hv, w,
      (Shape.mem_vertices_iff m.length_cells).mpr hw, ?_, ?_⟩
    · rw [m.cornerDof_eq hs hv, hcoordinates, hvi, Lattice.flatten_unflatten hi]
    · rw [m.cornerDof_eq hs hw, hcoordinates, hwj, Lattice.flatten_unflatten hj]

variable [Scalar α]

section Assembled

variable {m : BoxMesh α} {essential : List Nat} {options : Options α} {dim : Dimension}
  {source : JacobianSource α} {terms : MetricArray α} {a : Csr α}
  (h : Assembly.Assembled m.refinement m.space essential options dim source terms a)

include h

theorem pattern_eq_nearPairs (helements : ∀ n ∈ m.elements, 0 < n) :
    a.pattern = Lattice.nearPairs m.lattice := by
  obtain rfl : m.dim = dim := Dimension.eq_of_value_eq h.checks.space_dim
  have hrows : a.nrows = m.lattice.prod := h.nrows_eq.trans m.size_positions
  rw [Csr.pattern_eq, hrows, Lattice.nearPairs]
  refine List.flatMap_congr fun i hi => ?_
  rw [h.ordered.columns_eq_filter fun j => ?_]
  rw [h.mem_columns_iff]
  exact (m.exists_subcell_iff_near helements).trans (and_iff_right (List.mem_range.mp hi))

/-- Without elements along some axis there are no sub-cells, and nothing is stored. -/
theorem pattern_eq_nil (hempty : 0 ∈ m.elements) : a.pattern = [] := by
  have hnone : m.refinement.subcells = 0 :=
    List.prod_eq_zero (List.mem_map.mpr ⟨0, hempty, Nat.zero_mul m.order⟩)
  have hcolumns (i : Nat) : a.columns i = [] := by
    refine List.eq_nil_iff_forall_not_mem.mpr fun j hj => ?_
    obtain ⟨s, hs, -⟩ := h.mem_columns_iff.mp hj
    exact absurd hs (by rw [hnone]; exact Nat.not_lt_zero s)
  rw [Csr.pattern_eq]
  simp [hcolumns]

/-- Meshes with as many elements of the same order have the same pattern. -/
theorem pattern_eq_pattern {β : Type} [Scalar β] {m' : BoxMesh β} {essential' : List Nat}
    {options' : Options β} {dim' : Dimension} {source' : JacobianSource β}
    {terms' : MetricArray β} {a' : Csr β} (helements : m'.elements = m.elements)
    (horder : m'.order = m.order)
    (h' : Assembly.Assembled m'.refinement m'.space essential' options' dim' source' terms' a') :
    a'.pattern = a.pattern := by
  by_cases hempty : 0 ∈ m.elements
  · rw [pattern_eq_nil h hempty, pattern_eq_nil h' (helements ▸ hempty)]
  · have hpos : ∀ n ∈ m.elements, 0 < n := fun n hn =>
      Nat.pos_of_ne_zero fun hzero => hempty (hzero ▸ hn)
    rw [pattern_eq_nearPairs h hpos, pattern_eq_nearPairs h' (helements ▸ hpos), lattice, lattice,
      helements, horder]

end Assembled

/-- The stored entries of the matrix of a box mesh with elements along every axis are the pairs of
nodes that differ by at most one along every axis, each stored once and in order. Without elements
along some axis no entry is stored. The pattern is that of any other mesh with as many elements of
the same order: it depends neither on values, which may be zero, nor on essential degrees of
freedom, options or schedules. -/
theorem assemble_pattern {schedule : Schedule} {m : BoxMesh α} {essential : List Nat}
    {options : Options α} {a : Csr α}
    (h : (Assembly.assemble schedule m.refinement m.space essential options).result = .ok a) :
    ((∀ n ∈ m.elements, 0 < n) → a.pattern = Lattice.nearPairs m.lattice) ∧
    (0 ∈ m.elements → a.pattern = []) ∧
    ∀ (β : Type) [Scalar β] (schedule' : Schedule) (m' : BoxMesh β) (essential' : List Nat)
      (options' : Options β) (a' : Csr β), m'.elements = m.elements → m'.order = m.order →
      (Assembly.assemble schedule' m'.refinement m'.space essential' options').result = .ok a' →
      a'.pattern = a.pattern := by
  obtain ⟨dim, source, terms, hm⟩ := Assembly.assemble_spec h
  refine ⟨pattern_eq_nearPairs hm, pattern_eq_nil hm, ?_⟩
  intro β _ schedule' m' essential' options' a' helements horder h'
  obtain ⟨dim', source', terms', hm'⟩ := Assembly.assemble_spec h'
  exact pattern_eq_pattern hm helements horder hm'

/-- A strip without elements along its first axis, which has two nodes. -/
def emptyStrip : BoxMesh ℚ :=
  { bentSquares with
    elements := [0, 1]
    positions := #[[0, 0], [0, 1]]
    length_elements := rfl
    size_positions := rfl
    length_position := by decide
    nodes_fit := by decide }

/-- Two bent squares with an essential node store the entries of near nodes, those of the essential
node included; a strip without elements stores nothing. -/
theorem assemble_pattern_bentSquares :
    (∃ a, (Assembly.assemble .inOrder bentSquares.refinement bentSquares.space [4]
        (Options.standard.withParallel false)).result = .ok a ∧
      a.pattern = Lattice.nearPairs [3, 2] ∧ (0, 4) ∈ a.pattern ∧ (0, 5) ∉ a.pattern) ∧
    ∃ a, (Assembly.assemble .inOrder emptyStrip.refinement emptyStrip.space [4]
        (Options.standard.withParallel false)).result = .ok a ∧ a.pattern = [] := by
  have hsquares : (Assembly.assemble .inOrder bentSquares.refinement bentSquares.space [4]
      (Options.standard.withParallel false)).result.isOk = true := by
    rw [bentSquares.space_of_bilinear rfl rfl]
    decide +kernel
  have hstrip : (Assembly.assemble .inOrder emptyStrip.refinement emptyStrip.space [4]
      (Options.standard.withParallel false)).result.isOk = true := by
    rw [emptyStrip.space_of_bilinear rfl rfl]
    decide +kernel
  obtain ⟨a, ha⟩ := exists_of_isOk hsquares
  obtain ⟨a', ha'⟩ := exists_of_isOk hstrip
  have hpattern : a.pattern = Lattice.nearPairs [3, 2] := (assemble_pattern ha).1 (by decide)
  refine ⟨⟨a, ha, hpattern, ?_, ?_⟩, a', ha', (assemble_pattern ha').2.1 (by decide)⟩
  · rw [hpattern]
    decide
  · rw [hpattern]
    decide

end BoxMesh

end LowOrderRefinement
