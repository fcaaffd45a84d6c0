import LowOrderRefinement.Proofs.ExactField
import LowOrderRefinement.Proofs.BoxMesh.Connectivity
import LowOrderRefinement.Proofs.Assembly.TotalEnergy

/-! Assembled matrices without essential degrees of freedom are symmetric and positive
semidefinite, because energies are. A vector without energy has one value on the
corners of each sub-cell; as the sub-cells of an element fill a grid, it has one
value on all degrees of freedom of the element. -/

namespace LowOrderRefinement

open Finset

variable {K : Type} [ExactField K]

/-! ### Entries of a bilinear form -/

namespace Csr

theorem form_single_left (m : Csr K) {i : Nat} (hi : i < m.nrows) (y : Nat → K) :
    m.form (Pi.single i 1) y = ∑ j ∈ range m.ncols, m.value i j * y j := by
  rw [form, sum_eq_single_of_mem i (mem_range.mpr hi) fun k _ hk => by simp [hk]]
  simp

theorem form_single (m : Csr K) {i j : Nat} (hi : i < m.nrows) (hj : j < m.ncols) :
    m.form (Pi.single i 1) (Pi.single j 1) = m.value i j := by
  rw [form_single_left m hi, sum_eq_single_of_mem j (mem_range.mpr hj) fun k _ hk => by simp [hk]]
  simp

theorem form_congr {m m' : Csr K} (hrows : m.nrows = m'.nrows) (hcols : m.ncols = m'.ncols)
    (hvalue : ∀ i j, m.value i j = m'.value i j) (x y : Nat → K) : m.form x y = m'.form x y := by
  simp only [form, hrows, hcols, hvalue]

end Csr

/-! ### Values on the degrees of freedom of an element -/

namespace Space

variable {α : Type}

theorem exists_dofAt {space : Space} {nodes element dof : Nat} (h : space.Accepts nodes element)
    (hordering : space.ordering.toList.Perm (List.range nodes)) (hdof : dof ∈ space.dofs element) :
    ∃ node < nodes, space.dofAt element node = dof := by
  obtain ⟨place, hplace, rfl⟩ := Array.mem_iff_getElem.mp hdof
  have hmem : place ∈ space.ordering.toList :=
    hordering.mem_iff.mpr (List.mem_range.mpr (h.1 ▸ hplace))
  obtain ⟨node, hnode, hget⟩ := Array.mem_iff_getElem.mp (Array.mem_toList_iff.mp hmem)
  refine ⟨node, size_ordering hordering ▸ hnode, ?_⟩
  simp [dofAt, Array.getD_eq_getD_getElem?, hnode, hget, hplace]

end Space

namespace Assembly

variable {r : Refinement K} {space : Space} {essential : List Nat} {options : Options K}
  {dim : Dimension} {source : JacobianSource K} {m : MetricArray K} {a : Csr K}

theorem Assembled.cornerDof_mem (h : Assembled r space essential options dim source m a) {s : Nat}
    (hs : s < r.subcells) (v : List Nat) :
    r.cornerDof space dim s v ∈ space.dofs (r.embedding s).parent :=
  Space.dofAt_mem (h.accepts _ (h.evaluated.covers.placed s hs).parent_lt)
    (Nat.pow_pos (Nat.succ_pos _)) h.checks.ordering_lt _

theorem Assembled.cornerDof_lt (h : Assembled r space essential options dim source m a) {s : Nat}
    (hs : s < r.subcells) (v : List Nat) : r.cornerDof space dim s v < space.numDofs :=
  (h.accepts _ (h.evaluated.covers.placed s hs).parent_lt).2 _ (h.cornerDof_mem hs v)

/-- On the grid of an element, a vector with one value on the corners of each sub-cell is constant
on cells. -/
theorem Assembled.constOnCells (h : Assembled r space essential options dim source m a)
    {x : Nat → K}
    (hx : ∀ s < r.subcells, ∀ v ∈ Shape.vertices dim, ∀ w ∈ Shape.vertices dim,
      x (r.cornerDof space dim s v) = x (r.cornerDof space dim s w))
    {e : Nat} (he : e < space.elements) :
    Lattice.ConstOnCells
      (fun node => x (space.dofAt e (Lattice.flatten node
        (List.replicate dim.value (space.order + 1)))))
      (List.replicate dim.value space.order) := by
  intro cell hcell v w hv hw
  have hoffset := Lattice.flatten_lt hcell
  rw [List.prod_replicate] at hoffset
  obtain ⟨s, hs, hembedding⟩ := h.evaluated.covers.exists_embedding e he _ hoffset
  have hsame := hx s hs v ((Shape.mem_vertices_iff List.length_replicate).mpr hv) w
    ((Shape.mem_vertices_iff List.length_replicate).mpr hw)
  simpa only [Refinement.cornerDof, hembedding, Kernel.cornerNode,
    Lattice.unflatten_flatten hcell] using hsame

/-- A vector with one value on the corners of each sub-cell has one value on each element. -/
theorem Assembled.const_on_element (h : Assembled r space essential options dim source m a)
    {x : Nat → K}
    (hx : ∀ s < r.subcells, ∀ v ∈ Shape.vertices dim, ∀ w ∈ Shape.vertices dim,
      x (r.cornerDof space dim s v) = x (r.cornerDof space dim s w))
    {e : Nat} (he : e < space.elements) :
    ∀ i ∈ space.dofs e, ∀ j ∈ space.dofs e, x i = x j := by
  have hcells : ∀ n ∈ List.replicate dim.value space.order, 0 < n := fun n hn =>
    List.eq_of_mem_replicate hn ▸ h.checks.order_pos
  have hnodes : Lattice.nodeShape (List.replicate dim.value space.order) =
      List.replicate dim.value (space.order + 1) := List.map_replicate
  have hin {k : Nat} : Lattice.inBox (Lattice.unflatten k
      (List.replicate dim.value (space.order + 1)))
      (Lattice.nodeShape (List.replicate dim.value space.order)) := by
    rw [hnodes]
    exact Lattice.inBox_unflatten (by rw [List.prod_replicate]; exact Nat.pow_pos (Nat.succ_pos _))
  intro i hi j hj
  obtain ⟨node, hnode, rfl⟩ := Space.exists_dofAt (h.accepts e he) h.checks.ordering_perm hi
  obtain ⟨node', hnode', rfl⟩ := Space.exists_dofAt (h.accepts e he) h.checks.ordering_perm hj
  rw [← List.prod_replicate] at hnode hnode'
  have hsame := Lattice.eq_of_constOnCells (h.constOnCells hx he) hcells (hin (k := node))
    (hin (k := node'))
  simpa only [Lattice.flatten_unflatten hnode, Lattice.flatten_unflatten hnode'] using hsame

/-- Exactly the vectors with one value on the corners of each sub-cell have no energy. -/
theorem Assembled.energy_eq_zero_iff_corners
    (h : Assembled r space essential options dim source m a) (x : Nat → K) :
    ∑ s ∈ range r.subcells, r.energy space dim m x x s = 0 ↔
      ∀ s < r.subcells, ∀ v ∈ Shape.vertices dim, ∀ w ∈ Shape.vertices dim,
        x (r.cornerDof space dim s v) = x (r.cornerDof space dim s w) := by
  have helliptic : ∀ s ∈ range r.subcells, Kernel.Elliptic dim
      (m.terms (r.embedding s).parent) (r.embedding s).offset :=
    fun s hs => h.evaluated.elliptic (mem_range.mp hs)
  have hnonneg : ∀ s ∈ range r.subcells, 0 ≤ r.energy space dim m x x s :=
    fun s hs => Kernel.energy_nonneg (helliptic s hs) _
  rw [sum_eq_zero_iff_of_nonneg hnonneg]
  constructor
  · intro hzero s hs
    rw [← mem_range] at hs
    exact (Kernel.energy_eq_zero_iff (helliptic s hs)).mp (hzero s hs)
  · intro hconst s hs
    exact (Kernel.energy_eq_zero_iff (helliptic s hs)).mpr (hconst s (mem_range.mp hs))

/-- Exactly the vectors with one value on each element have no energy. -/
theorem Assembled.energy_eq_zero_iff (h : Assembled r space essential options dim source m a)
    (x : Nat → K) :
    ∑ s ∈ range r.subcells, r.energy space dim m x x s = 0 ↔
      ∀ e < space.elements, ∀ i ∈ space.dofs e, ∀ j ∈ space.dofs e, x i = x j := by
  rw [h.energy_eq_zero_iff_corners]
  constructor
  · intro hx e he
    exact h.const_on_element hx he
  · intro hconst s hs v _ w _
    exact hconst _ (h.evaluated.covers.placed s hs).parent_lt _ (h.cornerDof_mem hs v) _
      (h.cornerDof_mem hs w)

theorem Assembled.energy_nonneg (h : Assembled r space essential options dim source m a)
    (x : Nat → K) : 0 ≤ ∑ s ∈ range r.subcells, r.energy space dim m x x s :=
  sum_nonneg fun _ hs => Kernel.energy_nonneg (h.evaluated.elliptic (mem_range.mp hs)) _

/-! ### The matrix -/

theorem Assembled.value_comm (h : Assembled r space essential options dim source m a) {i j : Nat}
    (hi : i < space.numDofs) (hj : j < space.numDofs) : a.value i j = a.value j i := by
  have hsum : (contributionSum space dim m).value i j =
      (contributionSum space dim m).value j i := by
    rw [← Csr.form_single _ (by simpa using hi) (by simpa using hj),
      ← Csr.form_single _ (by simpa using hj) (by simpa using hi), contributionSum, h.form_sum,
      h.form_sum]
    exact sum_congr rfl fun s _ => Kernel.energy_comm _ _ _ _ _
  rw [h.eq_clear, Csr.value_clear, Csr.value_clear, hsum]
  exact if_congr (by rw [Bool.or_comm, ne_comm]) rfl rfl

theorem Assembled.form_eq (h : Assembled r space [] options dim source m a) (x y : Nat → K) :
    a.form x y = ∑ s ∈ range r.subcells, r.energy space dim m x y s := by
  rw [← h.form_sum, h.eq_clear]
  refine Csr.form_congr (Csr.nrows_clear _ _) (Csr.ncols_clear _ _) (fun i j => ?_) x y
  rw [Csr.value_clear]
  simp [cleared, contributionSum]

/-- An assembled matrix without essential degrees of freedom is symmetric and positive
semidefinite, its form is zero exactly at the vectors with one value on the degrees of freedom of
each element, and its rows sum to zero. -/
theorem assemble_semidefinite (schedule : Schedule) (r : Refinement K) (space : Space)
    (options : Options K) (a : Csr K)
    (h : (assemble schedule r space [] options).result = .ok a) :
    a.nrows = space.numDofs ∧ a.ncols = space.numDofs ∧
    (∀ i < space.numDofs, ∀ j < space.numDofs, a.value i j = a.value j i) ∧
    (∀ x, 0 ≤ a.form x x) ∧
    (∀ x, a.form x x = 0 ↔
      ∀ e < space.elements, ∀ i ∈ space.dofs e, ∀ j ∈ space.dofs e, x i = x j) ∧
    ∀ i < space.numDofs, ∑ j ∈ range space.numDofs, a.value i j = 0 := by
  obtain ⟨dim, source, m, h⟩ := assemble_spec h
  have hrows := h.nrows_eq
  have hcols := h.ncols_eq
  refine ⟨hrows, hcols, fun i hi j hj => h.value_comm hi hj, fun x => ?_, fun x => ?_,
    fun i hi => ?_⟩
  · rw [h.form_eq]
    exact h.energy_nonneg x
  · rw [h.form_eq]
    exact h.energy_eq_zero_iff x
  · -- the row sum is the form at a unit vector and the vector of ones
    have hrow := a.form_single_left (hrows ▸ hi) fun _ => 1
    simp only [mul_one, hcols] at hrow
    rw [← hrow, h.form_eq]
    exact sum_eq_zero fun s _ => Kernel.energy_const _ _ _ _ _

/-- A space over two squares that share the nodes of their common edge. -/
def sharedNodes : Space :=
  .ofTable 2 .nodalTensor 1 6 #[#[0, 1, 4, 3], #[1, 2, 5, 4]] #[0, 1, 3, 2]

/-- On two squares, the form is zero at the constant functions and positive at the function of a
single node. -/
theorem assemble_semidefinite_sharedNodes :
    ∃ a, (assemble .inOrder twoSquares sharedNodes []
        (Options.standard.withParallel false)).result = .ok a ∧
      a.form (fun _ => 1) (fun _ => 1) = 0 ∧ 0 < a.form (Pi.single 0 1) (Pi.single 0 1) := by
  have hok : (assemble .inOrder twoSquares sharedNodes []
      (Options.standard.withParallel false)).result.isOk = true := by decide +kernel
  obtain ⟨a, ha⟩ := exists_of_isOk hok
  obtain ⟨-, -, -, hnonneg, hzero, -⟩ :=
    assemble_semidefinite .inOrder twoSquares sharedNodes _ a ha
  refine ⟨a, ha, (hzero _).mpr fun _ _ _ _ _ _ => rfl, lt_of_le_of_ne (hnonneg _) fun h => ?_⟩
  have hsame := (hzero _).mp h.symm 0 (by decide) 0 (by decide +kernel) 1 (by decide +kernel)
  exact absurd hsame (by simp)

end Assembly

end LowOrderRefinement
