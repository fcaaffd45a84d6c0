import Mathlib.Analysis.Real.Sqrt
import LowOrderRefinement.Proofs.Invariance.Isolation
import LowOrderRefinement.Proofs.Cell.MetricMatrix
import LowOrderRefinement.Proofs.Evaluation.PointTerms

/-! The sources of planar Jacobians. At every point of the reference cell the closed form of
a Jacobian is the matrix of the vertex coordinates times the transposed matrix of the
gradients of the shape functions. Factors that are computed from the vertices hold
these products, and a Jacobian is within every tolerance of itself. So an evaluation
ends in the same way for all sources, with verification and without, as long as stored
factors belong to the vertices. -/

namespace LowOrderRefinement

open Matrix

/-! ### Roots -/

/-- A function in place of the square root that vanishes at zero and is never negative. -/
class ExactField.LawfulRoot (K : Type) [ExactField K] : Prop where
  root_zero : ExactField.root (0 : K) = 0
  root_nonneg : ∀ x : K, 0 ≤ ExactField.root x

noncomputable instance : ExactField ℝ where
  root := Real.sqrt

instance : ExactField.LawfulRoot ℝ where
  root_zero := Real.sqrt_zero
  root_nonneg := Real.sqrt_nonneg

instance : ExactField.LawfulRoot ℚ where
  root_zero := by decide
  root_nonneg x := Rat.sqrt_nonneg x

variable {K : Type} [ExactField K]

/-! ### Products of coordinates and gradients -/

/-- Coordinates that are listed vertex by vertex, as a matrix with one column for each vertex. -/
def vertexMatrix (d n : Nat) (coordinates : List K) : Matrix (Fin d) (Fin n) K :=
  .of fun axis vertex => coordinates.getD (d * vertex + axis) 0

namespace Quadrilateral

def gradientMatrix (ξ : Vec2 K) : Matrix (Fin 2) (Fin 4) K :=
  .of fun axis vertex => (((gradients ξ).map Vec2.toList).getD vertex []).getD axis 0

theorem jacobian_toMatrix {coordinates : List K} {cell : Quadrilateral K}
    (hcell : ofCoordinates coordinates = .ok cell) (ξ : Vec2 K) :
    (cell.jacobian ξ).toMatrix = vertexMatrix 2 4 coordinates * (gradientMatrix ξ)ᵀ := by
  obtain rfl := decodes.eq_ok_iff.mp hcell
  rw [jacobian_eq]
  ext a b
  rw [mul_apply, Fin.sum_univ_four]
  fin_cases a <;> fin_cases b <;> rfl

end Quadrilateral

namespace Hexahedron

def gradientMatrix (ξ : Vec3 K) : Matrix (Fin 3) (Fin 8) K :=
  .of fun axis vertex => (((gradients ξ).map Vec3.toList).getD vertex []).getD axis 0

theorem jacobian_toMatrix {coordinates : List K} {cell : Hexahedron K}
    (hcell : ofCoordinates coordinates = .ok cell) (ξ : Vec3 K) :
    (cell.jacobian ξ).toMatrix = vertexMatrix 3 8 coordinates * (gradientMatrix ξ)ᵀ := by
  obtain rfl := decodes.eq_ok_iff.mp hcell
  rw [jacobian_eq]
  ext a b
  rw [mul_apply, Fin.sum_univ_eight]
  fin_cases a <;> fin_cases b <;> rfl

end Hexahedron

/-! ### Jacobians at the quadrature points -/

namespace Refinement

/-- Stored Jacobians, if there are any, are those that the vertices give. -/
def UpToDate (r : Refinement K) : Prop := ∀ f, r.factors = some f → r.computeFactors = .ok f

variable {r : Refinement K} {options : Options K}

theorem upToDate_withFactors {f : GeometricFactors K} (h : r.computeFactors = .ok f) :
    (r.withFactors (some f)).UpToDate := by
  intro g hg
  obtain rfl : f = g := Option.some.inj hg
  exact h

theorem UpToDate.factorsFit (h : r.UpToDate) (hr : r.dim = 2) : r.FactorsFit .two options := by
  intro _ _ f hf
  exact ⟨dim_of_computeFactors (h f hf) hr, (computeFactors_spec (h f hf)).2.1⟩

/-- The options select the closed form in one way or another. -/
theorem UpToDate.planarJacobian_eq (h : r.UpToDate) (hr : r.dim = 2) {s : Nat}
    (hs : s < r.subcells) {cell : Quadrilateral K} (hcell : r.quadrilateral s = .ok cell) {q : Nat}
    {weight : K} {ξ : Vec2 K} (hq : Quadrature.square[q]? = some (weight, ξ)) :
    r.planarJacobian options cell s q ξ = .ok (cell.jacobian ξ) := by
  unfold planarJacobian
  split
  · rfl
  next f _ hf =>
    rw [f.planar_of_computeFactors (h f hf) (dim_of_computeFactors (h f hf) hr) hs hcell hq,
      cell.jacobian_eq]
  · rw [cell.jacobian_eq]

theorem confirms_self [ExactField.LawfulRoot K]
    (h : ∀ tolerance, options.verify = some tolerance → 0 ≤ tolerance) (j : Mat2 K) :
    confirms options j j = true := by
  unfold confirms
  split
  next tolerance _ hverify =>
    have hzero : (j.sub j).norm = 0 := by
      simp only [Mat2.norm, Mat2.sub, sub_self, mul_zero, add_zero]
      exact ExactField.LawfulRoot.root_zero
    have hnonneg : 0 ≤ tolerance * j.norm :=
      mul_nonneg (h tolerance hverify) (ExactField.LawfulRoot.root_nonneg _)
    rw [JacobianSource.agrees, hzero]
    exact decide_eq_true hnonneg
  next => rfl

/-- A Jacobian that is the closed form, and confirmed if it has to be, has the metric of the closed
form. -/
theorem pointTerms_two_of_closedForm {s : Nat} {cell : Quadrilateral K}
    (hcell : r.quadrilateral s = .ok cell) {q : Nat} {weight : K} {ξ : Vec2 K}
    (hq : Quadrature.square[q]? = some (weight, ξ))
    (hj : r.planarJacobian options cell s q ξ = .ok (cell.jacobian ξ))
    (hconfirms : confirms options (cell.jacobian ξ) (cell.jacobian ξ) = true) :
    r.pointTerms .two options s q = Except.map Sym2.toList
      (accept (r.embedding s).parent s q (Metric.planar (cell.jacobian ξ) weight)) := by
  simp only [pointTerms, hcell, entryAt_toArray hq, hj, lift_ok, ok_bind, hconfirms, if_true]
  exact bind_pure_comp _ _

/-! ### Whole evaluations -/

section Congruence

variable {α : Type} [Scalar α] {r : Refinement α} {dim : Dimension} {options options' : Options α}

theorem Slotted.slotTerms_congr {order elements : Nat} {table : Array Nat}
    (h : r.Slotted dim elements (order ^ dim.value) table) (hr : r.dim = dim.value)
    {source source' : JacobianSource α} (hsource : r.jacobianSource dim options = .ok source)
    (hsource' : r.jacobianSource dim options' = .ok source')
    (hpoints : ∀ s < r.subcells, ∀ q < dim.vertices,
      r.pointTerms dim options s q = r.pointTerms dim options' s q)
    {slot : Nat} (hslot : slot < table.size) :
    r.slotTerms dim source (order ^ dim.value) table slot =
      r.slotTerms dim source' (order ^ dim.value) table slot := by
  obtain ⟨s, hs, -, rfl⟩ := h.exists_getElem slot hslot
  rw [h.slotTerms_slotOf hsource hr hs, h.slotTerms_slotOf hsource' hr hs,
    mapM_congr fun q hq => hpoints s hs q (List.mem_range.mp hq)]

/-- Where both choices give Jacobians, evaluations with the same terms at every point end in the
same way. -/
theorem evaluateMetric_congr (schedule : Schedule) {order elements : Nat} (hr : r.dim = dim.value)
    (hparallel : options.parallel = options'.parallel)
    (hsource : ∀ table, r.slots dim order elements = .ok table →
      (∃ source, r.jacobianSource dim options = .ok source) ∧
        ∃ source, r.jacobianSource dim options' = .ok source)
    (hpoints : ∀ s < r.subcells, ∀ q < dim.vertices,
      r.pointTerms dim options s q = r.pointTerms dim options' s q) :
    (r.evaluateMetric schedule order elements options).result =
      (r.evaluateMetric schedule order elements options').result := by
  rw [evaluateMetric_result, evaluateMetric_result, dimension_eq_ok.mpr hr, ok_bind, ok_bind]
  refine bind_congr_of_ok fun table htable => ?_
  obtain ⟨⟨source, hsource⟩, source', hsource'⟩ := hsource table htable
  rw [hsource, ok_bind, hsource', ok_bind, subcells_eq_ok_of_slots htable, lift_ok, ok_bind,
    ok_bind, hparallel]
  refine bind_congr_of_ok fun _ _ => ?_
  congr 1
  exact allTerms_congr schedule
    (fun slot hslot => (slots_spec htable).slotTerms_congr hr hsource hsource' hpoints hslot) _

end Congruence

theorem UpToDate.exists_jacobianSource (h : r.UpToDate) (hr : r.dim = 2) (hcomplete : r.Complete)
    (hle : r.factors = none → 16 * r.subcells ≤ Size.maxEntries) {order elements : Nat}
    {table : Array Nat} (htable : r.slots .two order elements = .ok table) (options : Options K) :
    ∃ source, r.jacobianSource .two options = .ok source :=
  (Assembly.faultless_jacobianSource hr hcomplete fun _ _ => hle).exists_of_reports
    ((slots_spec htable).reports_jacobianSource hr (h.factorsFit hr))

/-- At every point of the reference cell the closed form of the Jacobian of a cell is the matrix of
its coordinates times the transposed matrix of the gradients of the shape functions. An evaluation
of planar sub-cells without stored Jacobians, or with those of the vertices, ends in the same way
for both sources of Jacobians, and for every tolerance that is not negative as without
verification. -/
theorem jacobian_sources_agree [ExactField.LawfulRoot K] :
    (∀ coordinates : List K, coordinates.length = 8 →
      ∃ cell, Quadrilateral.ofCoordinates coordinates = .ok cell ∧ ∀ ξ,
        (cell.jacobian ξ).toMatrix =
          vertexMatrix 2 4 coordinates * (Quadrilateral.gradientMatrix ξ)ᵀ) ∧
    (∀ coordinates : List K, coordinates.length = 24 →
      ∃ cell, Hexahedron.ofCoordinates coordinates = .ok cell ∧ ∀ ξ,
        (cell.jacobian ξ).toMatrix =
          vertexMatrix 3 8 coordinates * (Hexahedron.gradientMatrix ξ)ᵀ) ∧
    ∀ (schedule : Schedule) (r : Refinement K), r.dim = 2 → r.Complete → r.UpToDate →
      (r.factors = none → 16 * r.subcells ≤ Size.maxEntries) →
      ∀ (order elements : Nat) (options options' : Options K),
        options.parallel = options'.parallel →
        (∀ tolerance, options.verify = some tolerance → 0 ≤ tolerance) →
        (∀ tolerance, options'.verify = some tolerance → 0 ≤ tolerance) →
        (r.evaluateMetric schedule order elements options).result =
          (r.evaluateMetric schedule order elements options').result := by
  refine ⟨fun coordinates hlength => ?_, fun coordinates hlength => ?_, ?_⟩
  · obtain ⟨cell, hcell⟩ := Quadrilateral.decodes.exists_ok hlength
    exact ⟨cell, hcell, Quadrilateral.jacobian_toMatrix hcell⟩
  · obtain ⟨cell, hcell⟩ := Hexahedron.decodes.exists_ok hlength
    exact ⟨cell, hcell, Hexahedron.jacobian_toMatrix hcell⟩
  · intro schedule r hr hcomplete hcurrent hle order elements options options' hparallel hverify
      hverify'
    have hsources (table : Array Nat) (htable : r.slots .two order elements = .ok table) :=
      And.intro (hcurrent.exists_jacobianSource hr hcomplete hle htable options)
        (hcurrent.exists_jacobianSource hr hcomplete hle htable options')
    have htwo : r.dim = Dimension.two.value := hr
    refine evaluateMetric_congr schedule htwo hparallel hsources fun s hs q hq => ?_
    have hlength := hcomplete s hs
    rw [hr] at hlength
    obtain ⟨cell, hcell⟩ := Quadrilateral.decodes.exists_ok hlength
    have hpoint := Quadrature.getElem?_square (K := K) hq
    rw [pointTerms_two_of_closedForm hcell hpoint (hcurrent.planarJacobian_eq hr hs hcell hpoint)
        (confirms_self hverify _),
      pointTerms_two_of_closedForm hcell hpoint (hcurrent.planarJacobian_eq hr hs hcell hpoint)
        (confirms_self hverify' _)]

/-- A quadrilateral with real coordinates that is folded at its third vertex. -/
noncomputable def realDart : Refinement ℝ :=
  .ofTable 2 #[⟨.quadrilateral, ⟨0, 0⟩, [0, 0, 1, 0, Real.sqrt Scalar.half * Scalar.half,
    Scalar.half * Scalar.half, 0, 1]⟩] none

noncomputable def realBlock : List ℝ :=
  [0, 0, 0, 1, 0, 0, 1, 1, 0, 0, 1, 0, 0, 0, 1, 1, 0, 1, 1, 1, Real.sqrt (1 + 1), 0, 1, 1]

theorem complete_darts : darts.Complete := by
  show ∀ s < 2, (darts.vertices s).length = 8
  decide

/-- The Jacobians of a dart and of a block with real coordinates are products; the dart ends in the
same way with computed Jacobians that have to be confirmed exactly as with those of the vertices.
Two darts with stored Jacobians that have to be confirmed are refused for the determinant of one of
them. -/
theorem jacobian_sources_agree_darts :
    (∃ cell, Quadrilateral.ofCoordinates (realDart.vertices 0) = .ok cell ∧ ∀ ξ,
      (cell.jacobian ξ).toMatrix =
        vertexMatrix 2 4 (realDart.vertices 0) * (Quadrilateral.gradientMatrix ξ)ᵀ) ∧
    (∃ cell, Hexahedron.ofCoordinates realBlock = .ok cell ∧ ∀ ξ,
      (cell.jacobian ξ).toMatrix = vertexMatrix 3 8 realBlock * (Hexahedron.gradientMatrix ξ)ᵀ) ∧
    (realDart.evaluateMetric .inOrder 1 1 (Options.standard.withVerify (some 0))).result =
      (realDart.evaluateMetric .inOrder 1 1
        (Options.standard.withPlanarJacobians .vertices)).result ∧
    ∃ f, darts.computeFactors = .ok f ∧
      ((darts.withFactors (some f)).evaluateMetric .inOrder 1 2
        ((Options.standard.withParallel false).withVerify (some 0))).result =
          .error (.error (.nonPositiveDeterminant 0 1 3 (-(1 / 2)))) := by
  have hsquare : realDart.Complete := by
    show ∀ s < 1, (realDart.vertices s).length = 8
    intro s hs
    obtain rfl := Nat.lt_one_iff.mp hs
    rfl
  have hcomputed : darts.computeFactors.isOk = true := by decide +kernel
  have hfolded : (darts.evaluateMetric .inOrder 1 2
      ((Options.standard.withParallel false).withPlanarJacobians .vertices)).result.map
        (fun m => m.entries) =
          .error (.error (.nonPositiveDeterminant 0 1 3 (-(1 / 2)))) := by decide +kernel
  obtain ⟨hplanar, hsolid, hreal⟩ := jacobian_sources_agree (K := ℝ)
  obtain ⟨-, -, hrat⟩ := jacobian_sources_agree (K := ℚ)
  obtain ⟨f, hf⟩ := exists_of_isOk hcomputed
  have hcomplete : (darts.withFactors (some f)).Complete := complete_darts
  refine ⟨hplanar _ rfl, hsolid _ rfl, ?_, f, hf, ?_⟩
  · refine hreal .inOrder realDart rfl hsquare (fun _ h => by cases h)
      (fun _ => by decide) 1 1 _ _ rfl (fun t ht => ?_) fun t ht => by cases ht
    obtain rfl : 0 = t := Option.some.inj ht
    exact le_rfl
  · have hstored : ((darts.withFactors (some f)).evaluateMetric .inOrder 1 2
        ((Options.standard.withParallel false).withVerify (some 0))).result =
        ((darts.withFactors (some f)).evaluateMetric .inOrder 1 2
          (((Options.standard.withParallel false).withPlanarJacobians .vertices).withVerify
            none)).result := by
      refine hrat .inOrder (darts.withFactors (some f)) rfl hcomplete (upToDate_withFactors hf)
        (fun h => by cases h) 1 2 _ _ rfl (fun t ht => ?_) fun t ht => by cases ht
      obtain rfl : 0 = t := Option.some.inj ht
      exact le_rfl
    rw [hstored, evaluateMetric_withFactors .inOrder 1 2 (.inr rfl)]
    exact map_eq_error.mp hfolded

end Refinement

end LowOrderRefinement
