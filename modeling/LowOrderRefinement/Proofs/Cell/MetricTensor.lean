import Mathlib.LinearAlgebra.Matrix.DotProduct
import LowOrderRefinement.Proofs.Cell.MetricMatrix

/-! The metric tensor of a Jacobian, for all Jacobians and weights. A Jacobian whose determinant
is not positive is refused with its determinant. Every other has the one tensor that its
congruence turns into a multiple of the identity, namely the weight times the determinant;
for a positive weight this tensor is positive definite. -/

namespace LowOrderRefinement

open Matrix

variable {K : Type} [ExactField K]

/-! ### Congruence -/

section Congruence

variable {ι : Type} [Fintype ι] [DecidableEq ι] {J M : Matrix ι ι K}

/-- A congruence that is a multiple of the identity is one of the inverse Gram matrix. -/
theorem congruence_eq_smul_one_iff (hJ : J.det ≠ 0) (c : K) :
    J * M * Jᵀ = c • 1 ↔ M = c • (J⁻¹ * J⁻¹ᵀ) := by
  have hunit : IsUnit J.det := hJ.isUnit
  have hunit' : IsUnit Jᵀ.det := J.det_transpose.symm ▸ hunit
  rw [transpose_nonsing_inv]
  constructor
  · intro h
    calc M = J⁻¹ * (J * M * Jᵀ) * Jᵀ⁻¹ := by
          rw [Matrix.mul_assoc J, nonsing_inv_mul_cancel_left _ _ hunit,
            mul_nonsing_inv_cancel_right _ _ hunit']
      _ = c • (J⁻¹ * Jᵀ⁻¹) := by rw [h, Matrix.mul_smul, Matrix.mul_one, smul_mul]
  · rintro rfl
    rw [Matrix.mul_smul, smul_mul, mul_nonsing_inv_cancel_left _ _ hunit,
      nonsing_inv_mul _ hunit']

theorem smul_adjugate_mul_transpose (hJ : J.det ≠ 0) (w : K) :
    (w / J.det) • (J.adjugate * J.adjugateᵀ) = (w * J.det) • (J⁻¹ * J⁻¹ᵀ) := by
  rw [adjugate_mul_transpose hJ, smul_smul, transpose_nonsing_inv, ← Matrix.mul_inv_rev]
  congr 1
  field_simp

/-- Positive multiples of an inverse Gram matrix are positive definite. -/
theorem dotProduct_congruence_pos (hJ : J.det ≠ 0) {c : K} (hc : 0 < c) {x : ι → K}
    (hx : x ≠ 0) : 0 < x ⬝ᵥ (c • (J⁻¹ * J⁻¹ᵀ)) *ᵥ x := by
  have himage : J⁻¹ᵀ *ᵥ x ≠ 0 := by
    intro hzero
    apply hx
    calc x = Jᵀ *ᵥ (J⁻¹ᵀ *ᵥ x) := by
          rw [mulVec_mulVec, ← transpose_mul, nonsing_inv_mul _ hJ.isUnit, transpose_one,
            one_mulVec]
      _ = 0 := by rw [hzero, mulVec_zero]
  have hsquare : x ⬝ᵥ (c • (J⁻¹ * J⁻¹ᵀ)) *ᵥ x = c * ((J⁻¹ᵀ *ᵥ x) ⬝ᵥ (J⁻¹ᵀ *ᵥ x)) := by
    rw [smul_mulVec, dotProduct_smul, ← mulVec_mulVec, dotProduct_mulVec, ← mulVec_transpose,
      smul_eq_mul]
  rw [hsquare]
  have hnonneg : 0 ≤ (J⁻¹ᵀ *ᵥ x) ⬝ᵥ (J⁻¹ᵀ *ᵥ x) := Finset.sum_nonneg fun i _ => mul_self_nonneg _
  exact mul_pos hc (hnonneg.lt_of_ne' (mt dotProduct_self_eq_zero.mp himage))

end Congruence

/-! ### Metrics -/

namespace Metric

/-- A result is the metric of a matrix at a weight: a determinant that is not positive is the
error, and otherwise there is the one tensor with the congruence of a metric. -/
structure IsMetric {ι σ : Type} [Fintype ι] [DecidableEq ι] (tensor : σ → Matrix ι ι K)
    (J : Matrix ι ι K) (w : K) (result : Except K σ) : Prop where
  error_iff : ∀ d, result = .error d ↔ J.det ≤ 0 ∧ d = J.det
  exists_iff : (∃ m, result = .ok m) ↔ 0 < J.det
  ok_iff : ∀ m, result = .ok m ↔ 0 < J.det ∧ J * tensor m * Jᵀ = (w * J.det) • 1
  inverse : ∀ m, result = .ok m → tensor m = (w * J.det) • (J⁻¹ * J⁻¹ᵀ)
  isSymm : ∀ m, result = .ok m → (tensor m).IsSymm
  posDef : ∀ m, result = .ok m → 0 < w → ∀ x ≠ 0, 0 < x ⬝ᵥ tensor m *ᵥ x

section Congruence

variable {ι σ : Type} [Fintype ι] [DecidableEq ι] {tensor : σ → Matrix ι ι K} {J : Matrix ι ι K}
  {w : K}

/-- The scaled product of the adjugate with its transpose is the metric, if it is returned for
positive determinants only. -/
theorem isMetric_guarded (htensor : ∀ {m m'}, tensor m = tensor m' → m = m') {det : K}
    (hdet : J.det = det) {metric : σ}
    (hmetric : ∀ {m}, (if Scalar.isPos det then .ok metric else .error det : Except K σ) = .ok m →
      tensor m = (w / J.det) • (J.adjugate * J.adjugateᵀ)) :
    IsMetric tensor J w (if Scalar.isPos det then .ok metric else .error det) := by
  subst hdet
  have hexists : (∃ m, (if Scalar.isPos J.det then .ok metric else .error J.det : Except K σ) =
      .ok m) ↔ 0 < J.det := by
    simp only [guarded_eq_ok, exists_eq_right]
  have hinverse : ∀ m, (if Scalar.isPos J.det then .ok metric else .error J.det : Except K σ) =
      .ok m → tensor m = (w * J.det) • (J⁻¹ * J⁻¹ᵀ) := by
    intro m hm
    rw [hmetric hm, smul_adjugate_mul_transpose (guarded_eq_ok.mp hm).1.ne']
  refine ⟨fun d => ?_, hexists, fun m => ⟨fun hm => ?_, ?_⟩, hinverse, fun m hm => ?_, ?_⟩
  · by_cases hpos : 0 < J.det
    · simp [hpos]
    · rw [guarded_eq_error hpos, Except.error.injEq, and_iff_right (not_lt.mp hpos), eq_comm]
  · have hpos := hexists.mp ⟨m, hm⟩
    exact ⟨hpos, (congruence_eq_smul_one_iff hpos.ne' _).mpr (hinverse m hm)⟩
  · rintro ⟨hpos, hcongruence⟩
    obtain ⟨m', hm'⟩ := hexists.mpr hpos
    have hm := (congruence_eq_smul_one_iff hpos.ne' _).mp hcongruence
    rw [hm', htensor ((hinverse m' hm').trans hm.symm)]
  · rw [hinverse m hm, Matrix.IsSymm, transpose_smul, transpose_mul, transpose_transpose]
  · intro m hm hw x hx
    have hpos := hexists.mp ⟨m, hm⟩
    rw [hinverse m hm]
    exact dotProduct_congruence_pos hpos.ne' (mul_pos hw hpos) hx

theorem IsMetric.tensor_eq {result : Except K σ} (h : IsMetric tensor J w result) {m : σ}
    (hm : result = .ok m) : tensor m = (w / J.det) • (J.adjugate * J.adjugateᵀ) := by
  rw [h.inverse m hm, smul_adjugate_mul_transpose (h.exists_iff.mp ⟨m, hm⟩).ne']

end Congruence

theorem isMetric_planar (j : Mat2 K) (w : K) :
    IsMetric Sym2.toMatrix j.toMatrix w (planar j w) :=
  isMetric_guarded Sym2.toMatrix_inj (Mat2.det_toMatrix j) planar_toMatrix

theorem isMetric_solid (j : Mat3 K) (w : K) :
    IsMetric Sym3.toMatrix j.toMatrix w (solid j w) :=
  isMetric_guarded Sym3.toMatrix_inj (det_toMatrix j) solid_toMatrix

/-- The metric of a Jacobian in either dimension. It is an error exactly when the determinant is
not positive, and the error is the determinant. Otherwise it is the one tensor that the congruence
with the Jacobian turns into the weight times the determinant, which is positive definite for a
positive weight; its entries are listed as its upper triangle, row by row. -/
theorem metric_characterised :
    (∀ (j : Mat2 K) (w : K), IsMetric Sym2.toMatrix j.toMatrix w (planar j w)) ∧
    (∀ (j : Mat3 K) (w : K), IsMetric Sym3.toMatrix j.toMatrix w (solid j w)) ∧
    (∀ m : Sym2 K, m.toList = upperTriangle m.toMatrix) ∧
    ∀ m : Sym3 K, m.toList = upperTriangle m.toMatrix :=
  ⟨isMetric_planar, isMetric_solid, Sym2.toList_eq, Sym3.toList_eq⟩

def skewJacobian : Mat2 ℚ := ⟨13 / 10, 2 / 5, -1 / 5, 9 / 10⟩

/-- A skew Jacobian has a positive definite metric; a reflection and a flat cell are refused with
their determinants. -/
theorem metric_characterised_skew :
    (∃ m, planar skewJacobian (7 / 10) = .ok m ∧
      skewJacobian.toMatrix * m.toMatrix * skewJacobian.toMatrixᵀ = (7 / 8 : ℚ) • 1 ∧
      ∀ x ≠ 0, 0 < x ⬝ᵥ m.toMatrix *ᵥ x) ∧
    planar (⟨-1, 0, 0, 1⟩ : Mat2 ℚ) 1 = .error (-1) ∧
    solid (⟨1, 0, 0, 0, 1, 0, 0, 0, 0⟩ : Mat3 ℚ) 1 = .error 0 := by
  obtain ⟨hplanar, hsolid, -, -⟩ := metric_characterised (K := ℚ)
  have hskew : skewJacobian.toMatrix.det = 5 / 4 := by
    rw [Mat2.det_toMatrix, Mat2.det, skewJacobian]
    norm_num
  have hreflected : (⟨-1, 0, 0, 1⟩ : Mat2 ℚ).toMatrix.det = -1 := by
    rw [Mat2.det_toMatrix, Mat2.det]
    norm_num
  have hflat : (⟨1, 0, 0, 0, 1, 0, 0, 0, 0⟩ : Mat3 ℚ).toMatrix.det = 0 := by
    rw [det_toMatrix, solidDet]
    norm_num
  have hmetric := hplanar skewJacobian (7 / 10)
  obtain ⟨m, hm⟩ := hmetric.exists_iff.mpr (by rw [hskew]; norm_num)
  refine ⟨⟨m, hm, ?_, hmetric.posDef m hm (by norm_num)⟩, ?_, ?_⟩
  · rw [((hmetric.ok_iff m).mp hm).2, hskew]
    norm_num
  · exact ((hplanar _ 1).error_iff _).mpr ⟨by rw [hreflected]; norm_num, hreflected.symm⟩
  · exact ((hsolid _ 1).error_iff _).mpr ⟨hflat.le, hflat.symm⟩

end Metric

end LowOrderRefinement
