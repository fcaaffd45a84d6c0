import LowOrderRefinement.Proofs.BoxMesh.MeshNumbering
import LowOrderRefinement.Proofs.Assembly.Semidefinite

/-! Assembled matrices of box meshes with an essential node are symmetric and positive
definite. Elimination splits the form into the energy of the vector that is zero at
all essential nodes and the squares of its values at these nodes times the diagonal
entries. A vector without energy has one value on the whole lattice, which is zero
if it is zero at one node. -/

namespace LowOrderRefinement

open Finset

variable {K : Type} [ExactField K]

/-! ### The form after elimination -/

/-- A vector with zeros at the essential degrees of freedom. -/
def restrict (isEssential : Nat → Bool) (x : Nat → K) (i : Nat) : K :=
  if isEssential i then 0 else x i

namespace Csr

/-- Elimination leaves the form of the other degrees of freedom and a diagonal. -/
theorem form_clear (m : Csr K) (hsquare : m.ncols = m.nrows) (isEssential : Nat → Bool)
    (x : Nat → K) :
    (m.clear isEssential).form x x =
      m.form (restrict isEssential x) (restrict isEssential x) +
        ∑ i ∈ range m.nrows, if isEssential i then m.value i i * x i ^ 2 else 0 := by
  have hentry (i j : Nat) : x i * (m.clear isEssential).value i j * x j =
      restrict isEssential x i * m.value i j * restrict isEssential x j +
        if i = j then if isEssential i then m.value i i * x i ^ 2 else 0 else 0 := by
    rw [value_clear, restrict, restrict]
    by_cases hij : i = j
    · subst hij
      cases isEssential i <;> simp
      ring
    · cases isEssential i <;> cases isEssential j <;> simp [hij]
  simp only [form, nrows_clear, ncols_clear, hentry, sum_add_distrib, hsquare]
  congr 1
  refine sum_congr rfl fun i hi => ?_
  rw [sum_ite_eq, if_pos hi]

end Csr

/-! ### Box meshes -/

namespace BoxMesh

theorem one_lt_numDofs {α : Type} (m : BoxMesh α) (helements : ∀ n ∈ m.elements, 0 < n) :
    1 < m.space.numDofs := by
  have hnumDofs : m.space.numDofs = (latticeShape m.elements m.order).prod := m.size_positions
  have hlength : 0 < m.elements.length := by
    rw [m.length_elements]
    cases m.dim <;> decide
  obtain ⟨n, elements, helems⟩ := List.exists_cons_of_length_pos hlength
  have hn : 0 < n := helements n (helems ▸ List.mem_cons_self)
  have hrest : 0 < (latticeShape elements m.order).prod := by
    refine List.prod_pos_iff_forall_pos_nat.mpr fun k hk => ?_
    obtain ⟨_, -, rfl⟩ := List.mem_map.mp hk
    exact Nat.succ_pos _
  rw [hnumDofs, helems]
  have hfirst : 1 < n * m.order + 1 := Nat.succ_lt_succ (Nat.mul_pos hn m.order_pos)
  exact Nat.lt_of_lt_of_le hfirst (Nat.le_mul_of_pos_right _ hrest)

end BoxMesh

namespace Assembly

variable {mesh : BoxMesh K} {essential : List Nat} {options : Options K} {source : JacobianSource K}
  {m : MetricArray K} {a : Csr K}

/-- Only vectors with one value on all nodes of a box have no energy. -/
theorem Assembled.eq_of_energy_eq_zero
    (h : Assembled mesh.refinement mesh.space essential options mesh.dim source m a)
    (helements : ∀ n ∈ mesh.elements, 0 < n) {x : Nat → K}
    (hzero : ∑ s ∈ range mesh.refinement.subcells,
      mesh.refinement.energy mesh.space mesh.dim m x x s = 0)
    {i j : Nat} (hi : i < mesh.space.numDofs) (hj : j < mesh.space.numDofs) : x i = x j :=
  mesh.const_on_nodes helements ((h.energy_eq_zero_iff_corners x).mp hzero) hi hj

theorem Assembled.diagonal_pos
    (h : Assembled mesh.refinement mesh.space essential options mesh.dim source m a)
    (helements : ∀ n ∈ mesh.elements, 0 < n) {i : Nat} (hi : i < mesh.space.numDofs) :
    0 < (contributionSum mesh.space mesh.dim m).value i i := by
  rw [← Csr.form_single _ (by simpa using hi) (by simpa using hi), contributionSum, h.form_sum]
  refine lt_of_le_of_ne (h.energy_nonneg _) fun hzero => ?_
  obtain ⟨j, hj, hne⟩ : ∃ j < mesh.space.numDofs, j ≠ i := by
    have hone := mesh.one_lt_numDofs helements
    by_cases h0 : i = 0
    · exact ⟨1, hone, by omega⟩
    · exact ⟨0, by omega, Ne.symm h0⟩
  have hsame := h.eq_of_energy_eq_zero helements hzero.symm hi hj
  simp [hne] at hsame

/-- The form of the matrix is the energy of the restricted vector and the squares of the essential
values, each times its diagonal entry. -/
theorem Assembled.form_self
    (h : Assembled mesh.refinement mesh.space essential options mesh.dim source m a) (x : Nat → K) :
    a.form x x =
      ∑ s ∈ range mesh.refinement.subcells, mesh.refinement.energy mesh.space mesh.dim m
        (restrict (cleared mesh.space essential) x) (restrict (cleared mesh.space essential) x) s +
      ∑ i ∈ range mesh.space.numDofs, if cleared mesh.space essential i then
        (contributionSum mesh.space mesh.dim m).value i i * x i ^ 2 else 0 := by
  rw [h.eq_clear, Csr.form_clear _ (by simp), nrows_contributionSum, contributionSum, h.form_sum]

/-- A vector that is not zero on the nodes has positive form. -/
theorem Assembled.form_pos
    (h : Assembled mesh.refinement mesh.space essential options mesh.dim source m a)
    (helements : ∀ n ∈ mesh.elements, 0 < n) (hessential : ∃ i ∈ essential, i < mesh.space.numDofs)
    {x : Nat → K} {k : Nat} (hk : k < mesh.space.numDofs) (hxk : x k ≠ 0) : 0 < a.form x x := by
  have henergy := h.energy_nonneg (restrict (cleared mesh.space essential) x)
  have hterm : ∀ i ∈ range mesh.space.numDofs, 0 ≤ if cleared mesh.space essential i then
      (contributionSum mesh.space mesh.dim m).value i i * x i ^ 2 else 0 := by
    intro i hi
    split
    · exact mul_nonneg (h.diagonal_pos helements (mem_range.mp hi)).le (sq_nonneg _)
    · exact le_rfl
  rw [h.form_self]
  refine lt_of_le_of_ne (add_nonneg henergy (sum_nonneg hterm)) fun hzero => hxk ?_
  obtain ⟨henergy0, hterm0⟩ :=
    (add_eq_zero_iff_of_nonneg henergy (sum_nonneg hterm)).mp hzero.symm
  by_cases hkE : cleared mesh.space essential k
  · have hk0 := (sum_eq_zero_iff_of_nonneg hterm).mp hterm0 k (mem_range.mpr hk)
    rw [if_pos hkE] at hk0
    exact pow_eq_zero_iff two_ne_zero |>.mp
      ((mul_eq_zero.mp hk0).resolve_left (h.diagonal_pos helements hk).ne')
  · -- the restricted vector is constant, and zero at an essential node
    obtain ⟨i, hi, hlt⟩ := hessential
    have hiE : cleared mesh.space essential i = true := decide_eq_true ⟨hi, hlt⟩
    have hsame := h.eq_of_energy_eq_zero helements henergy0 hk hlt
    rwa [restrict, restrict, if_neg hkE, if_pos hiE] at hsame

/-- The assembled matrix of a box mesh with an essential node is symmetric and positive definite,
and the diagonal entries that elimination keeps are positive. -/
theorem assemble_definite (schedule : Schedule) (mesh : BoxMesh K)
    (helements : ∀ n ∈ mesh.elements, 0 < n) (essential : List Nat)
    (hessential : ∃ i ∈ essential, i < mesh.space.numDofs) (options : Options K) (a : Csr K)
    (h : (assemble schedule mesh.refinement mesh.space essential options).result = .ok a) :
    a.nrows = mesh.space.numDofs ∧ a.ncols = mesh.space.numDofs ∧
    (∀ i < mesh.space.numDofs, ∀ j < mesh.space.numDofs, a.value i j = a.value j i) ∧
    (∀ x : Nat → K, (∃ i < mesh.space.numDofs, x i ≠ 0) → 0 < a.form x x) ∧
    ∀ i ∈ essential, i < mesh.space.numDofs → 0 < a.value i i := by
  obtain ⟨dim, source, m, h⟩ := assemble_spec h
  obtain rfl : dim = mesh.dim := Dimension.eq_of_value_eq h.checks.refinement_dim.symm
  refine ⟨h.nrows_eq, h.ncols_eq, fun i hi j hj => h.value_comm hi hj, fun x hx => ?_,
    fun i _ hi => ?_⟩
  · obtain ⟨k, hk, hxk⟩ := hx
    exact h.form_pos helements hessential hk hxk
  · rw [h.eq_clear, Csr.value_clear, if_neg (fun hne => hne.1 rfl)]
    exact h.diagonal_pos helements hi

/-- Two squares with one essential node: the constant functions have positive form. -/
theorem assemble_definite_bentSquares :
    ∃ a, (assemble .inOrder BoxMesh.bentSquares.refinement BoxMesh.bentSquares.space [4]
        (Options.standard.withParallel false)).result = .ok a ∧
      0 < a.form (fun _ => 1) (fun _ => 1) ∧ 0 < a.value 4 4 := by
  have hok : (assemble .inOrder BoxMesh.bentSquares.refinement BoxMesh.bentSquares.space [4]
      (Options.standard.withParallel false)).result.isOk = true := by
    rw [BoxMesh.bentSquares.space_of_bilinear rfl rfl]
    decide +kernel
  obtain ⟨a, ha⟩ := exists_of_isOk hok
  obtain ⟨-, -, -, hpos, hdiagonal⟩ := assemble_definite .inOrder BoxMesh.bentSquares (by decide)
    [4] ⟨4, by decide, by decide⟩ _ a ha
  exact ⟨a, ha, hpos _ ⟨0, by decide, one_ne_zero⟩, hdiagonal 4 (by decide) (by decide)⟩

end Assembly

end LowOrderRefinement
