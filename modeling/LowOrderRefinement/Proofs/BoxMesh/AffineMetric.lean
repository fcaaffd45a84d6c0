import Mathlib.Algebra.Order.Field.Basic
import LowOrderRefinement.Proofs.BoxMesh.AffineMesh
import LowOrderRefinement.Proofs.Cell.MetricMatrix
import LowOrderRefinement.Proofs.Evaluation.Regularity

/-! The metric of a mesh whose nodes have not been moved. The Jacobian of every sub-cell is the
matrix of the affine map, divided by the order, so that there is one metric, in terms of
the Gram matrix of the map. It exists exactly when the determinant of the map is positive;
otherwise the first quadrature point of any sub-cell is refused. -/

namespace LowOrderRefinement

open Matrix

variable {K : Type} [ExactField K]

def mapMatrix (d : Nat) (map : List (List K)) : Matrix (Fin d) (Fin d) K :=
  .of fun a b => (map.getD a []).getD b 0

/-- The metric of a sub-cell at a quadrature point, for elements of the given order. -/
noncomputable def affineMetric (d : Nat) (map : List (List K)) (order : Nat) :
    Matrix (Fin d) (Fin d) K :=
  (((2 ^ d : Nat) : K)⁻¹ * (order : K) ^ (2 - d : ℤ) * (mapMatrix d map).det) •
    ((mapMatrix d map)ᵀ * mapMatrix d map)⁻¹

theorem mapM_eq_error_of_first {ε β γ : Type} {f : β → Except ε γ} {xs : List β} {x : β} {e : ε}
    (hx : xs[0]? = some x) (h : f x = .error e) : xs.mapM f = .error e := by
  cases xs with
  | nil => cases hx
  | cons y ys =>
    obtain rfl : y = x := Option.some.inj hx
    exact mapM_eq_error.mpr ⟨[], y, ys, rfl, h, by simp⟩

/-! ### One Jacobian -/

theorem metric_smul {k : Nat} {M : Matrix (Fin (k + 1)) (Fin (k + 1)) K} (hM : M.det ≠ 0) {p : K}
    (hp : p ≠ 0) (w : K) :
    (w / (p⁻¹ • M).det) • ((p⁻¹ • M).adjugate * (p⁻¹ • M).adjugateᵀ) =
      (w * p ^ (2 - (k + 1 : Nat) : ℤ) * M.det) • (Mᵀ * M)⁻¹ := by
  have hpower : p ^ (2 - (k + 1 : Nat) : ℤ) = p * (p ^ k)⁻¹ := by
    rw [show (2 - (k + 1 : Nat) : ℤ) = 1 - k by push_cast; ring, zpow_sub₀ hp, zpow_one,
      zpow_natCast, div_eq_mul_inv]
  rw [det_smul, adjugate_smul, transpose_smul, smul_mul, Matrix.mul_smul,
    adjugate_mul_transpose hM, smul_smul, smul_smul, smul_smul, Fintype.card_fin, hpower,
    Nat.add_sub_cancel, inv_pow, inv_pow, pow_succ]
  congr 1
  field_simp

namespace BoxMesh

theorem planarCellMap_toMatrix (map : List (List K)) (order : Nat) :
    (planarCellMap map order).toMatrix = (order : K)⁻¹ • mapMatrix 2 map := by
  ext a b
  rw [Matrix.smul_apply, smul_eq_mul, ← div_eq_inv_mul]
  fin_cases a <;> fin_cases b <;> rfl

theorem solidCellMap_toMatrix (map : List (List K)) (order : Nat) :
    (solidCellMap map order).toMatrix = (order : K)⁻¹ • mapMatrix 3 map := by
  ext a b
  rw [Matrix.smul_apply, smul_eq_mul, ← div_eq_inv_mul]
  fin_cases a <;> fin_cases b <;> rfl

theorem det_inv_smul {d : Nat} (M : Matrix (Fin d) (Fin d) K) (p : K) :
    (p⁻¹ • M).det = M.det / p ^ d := by
  rw [det_smul, Fintype.card_fin, inv_pow, inv_mul_eq_div]

theorem det_planarCellMap (map : List (List K)) (order : Nat) :
    (planarCellMap map order).det = (mapMatrix 2 map).det / (order : K) ^ 2 := by
  rw [← Mat2.det_toMatrix, planarCellMap_toMatrix, det_inv_smul]

theorem det_solidCellMap (map : List (List K)) (order : Nat) :
    Metric.solidDet (solidCellMap map order) = (mapMatrix 3 map).det / (order : K) ^ 3 := by
  rw [← Metric.det_toMatrix, solidCellMap_toMatrix, det_inv_smul]

theorem det_pos_iff {d : Nat} {map : List (List K)} {order : Nat} (horder : 0 < order) :
    0 < (mapMatrix d map).det / (order : K) ^ d ↔ 0 < (mapMatrix d map).det :=
  div_pos_iff_of_pos_right (pow_pos (Nat.cast_pos.mpr horder) _)

section Unperturbed

variable {m : BoxMesh K} {map : List (List K)} {translation : List K}
  (h : m.Unperturbed map translation) {s : Nat} (hs : s < m.cells.prod)

include h hs

/-- All metrics that have been evaluated are the same. -/
theorem metric_of_unperturbed {options : Options K} (hcurrent : m.Current options)
    {source : JacobianSource K} (hsource : m.refinement.jacobianSource m.dim options = .ok source)
    {elements : Nat} {terms : MetricArray K}
    (heval : m.refinement.Evaluated m.dim m.order elements source terms) {q : Nat}
    (hq : q < m.dim.vertices) :
    0 < (mapMatrix m.dim.value map).det ∧
      Kernel.metric m.dim (terms.terms (m.embedding s).parent) (m.embedding s).offset q =
        affineMetric m.dim.value map m.order := by
  have hp : (m.order : K) ≠ 0 := Nat.cast_ne_zero.mpr m.order_pos.ne'
  generalize hdim : m.dim = dim at *
  cases dim with
  | two =>
    have hmetric := planarMetric_of_unperturbed h hs hdim hcurrent hsource heval hq
    have hdet : 0 < (mapMatrix 2 map).det := (det_pos_iff m.order_pos).mp
      (det_planarCellMap map m.order ▸ (Metric.planar_eq_ok.mp hmetric).1)
    refine ⟨hdet, ?_⟩
    show (Kernel.planarMetric _ _ q).toMatrix = affineMetric 2 map m.order
    rw [Metric.planar_toMatrix hmetric, planarCellMap_toMatrix, metric_smul hdet.ne' hp,
      affineMetric]
    norm_num
  | three =>
    have hmetric := solidMetric_of_unperturbed h hs hdim heval hq
    have hdet : 0 < (mapMatrix 3 map).det := (det_pos_iff m.order_pos).mp
      (det_solidCellMap map m.order ▸ (Metric.solid_eq_ok.mp hmetric).1)
    refine ⟨hdet, ?_⟩
    show (Kernel.solidMetric _ _ q).toMatrix = affineMetric 3 map m.order
    rw [Metric.solid_toMatrix hmetric, solidCellMap_toMatrix, metric_smul hdet.ne' hp,
      affineMetric]
    norm_num

end Unperturbed

/-! ### Which maps have a metric -/

section Regular

variable {m : BoxMesh K} {map : List (List K)} {translation : List K} {options : Options K}

theorem planarJacobian_of_unperturbed (h : m.Unperturbed map translation) (hdim : m.dim = .two)
    (hfactors : m.factors = none) {s : Nat} (hs : s < m.cells.prod) {cell : Quadrilateral K}
    (hcell : m.refinement.quadrilateral s = .ok cell) {q : Nat} (hq : q < 4) :
    m.refinement.planarJacobian options cell s q (Quadrature.planarPoint q) =
      .ok (planarCellMap map m.order) := by
  have hnone : m.refinement.factors = none := hfactors
  rw [Refinement.planarJacobian_of_factors hnone, cell.jacobian_eq,
    planar_of_unperturbed h hs hdim hcell hq]

/-- All sub-cells are regular when the determinant of the map is positive. -/
theorem regular_of_unperturbed (h : m.Unperturbed map translation) (hfactors : m.factors = none)
    (hverify : options.verify = none) (hdet : 0 < (mapMatrix m.dim.value map).det) {s : Nat}
    (hs : s < m.cells.prod) : m.refinement.Regular m.dim options s := by
  generalize hdim : m.dim = dim at *
  have hpos := (det_pos_iff m.order_pos).mpr hdet
  cases dim with
  | two =>
    have hcell := m.quadrilateral_eq hdim hs
    refine ⟨_, hcell, fun q weight ξ hq => ?_⟩
    have hlt : q < 4 := (List.getElem?_eq_some_iff.mp hq).1
    obtain ⟨rfl, rfl⟩ := Prod.mk.inj (Option.some.inj
      (hq.symm.trans (Quadrature.getElem?_square hlt)))
    refine ⟨_, planarJacobian_of_unperturbed h hdim hfactors hs hcell hlt,
      Refinement.confirms_of_verify hverify _ _, ?_⟩
    rw [ExactField.isPos_eq_true, det_planarCellMap]
    exact hpos
  | three =>
    have hcell := m.hexahedron_eq hdim hs
    refine ⟨_, hcell, fun q weight ξ hq => ?_⟩
    have hlt : q < 8 := (List.getElem?_eq_some_iff.mp hq).1
    obtain ⟨rfl, rfl⟩ := Prod.mk.inj (Option.some.inj
      (hq.symm.trans (Quadrature.getElem?_cube hlt)))
    rw [solid_of_unperturbed h hs hdim hcell hlt, ExactField.isPos_eq_true, det_solidCellMap]
    exact hpos

/-- Otherwise every sub-cell is refused at its first quadrature point, with the determinant of
its Jacobian. -/
theorem subcellTerms_of_unperturbed (h : m.Unperturbed map translation)
    (hfactors : m.factors = none) (hverify : options.verify = none)
    (hdet : ¬0 < (mapMatrix m.dim.value map).det) {source : JacobianSource K}
    (hsource : m.refinement.jacobianSource m.dim options = .ok source) {s : Nat}
    (hs : s < m.cells.prod) (parent : Nat) :
    m.refinement.subcellTerms m.dim source parent s = .error (.error
      (.nonPositiveDeterminant parent s 0
        ((mapMatrix m.dim.value map).det / (m.order : K) ^ m.dim.value))) := by
  generalize hdim : m.dim = dim at *
  have hpos := mt (det_pos_iff m.order_pos).mp hdet
  cases dim with
  | two =>
    have hcell := m.quadrilateral_eq hdim hs
    have hpoint := Quadrature.getElem?_square (K := K) (by decide : 0 < 4)
    have hj := (Refinement.planar_eq_ok hsource (congrArg Dimension.value hdim) hs hcell
      hpoint).mpr ⟨planarJacobian_of_unperturbed h hdim hfactors hs hcell (by decide),
        Refinement.confirms_of_verify hverify _ _⟩
    have hmetric : Metric.planar (planarCellMap map m.order) (1 / 4) =
        .error ((mapMatrix 2 map).det / (m.order : K) ^ 2) := by
      rw [← det_planarCellMap]
      exact Metric.planar_eq_error ((det_planarCellMap map m.order).symm ▸ hpos)
    have hterms : Refinement.planarTerms source _ parent s = _ :=
      mapM_eq_error_of_first (x := ((_, _), 0)) (by rw [List.getElem?_zipIdx, hpoint]; rfl)
        (bind_eq_error.mpr (.inr ⟨_, hj, congrArg (Refinement.accept parent s 0) hmetric⟩))
    simp only [Refinement.subcellTerms, hcell, lift_ok, ok_bind, hterms, error_bind]
    rfl
  | three =>
    have hcell := m.hexahedron_eq hdim hs
    have hpoint := Quadrature.getElem?_cube (K := K) (by decide : 0 < 8)
    have hmetric : Metric.solid (solidCellMap map m.order) (1 / 8) =
        .error ((mapMatrix 3 map).det / (m.order : K) ^ 3) := by
      rw [← det_solidCellMap]
      exact Metric.solid_eq_error ((det_solidCellMap map m.order).symm ▸ hpos)
    rw [← solid_of_unperturbed h hs hdim hcell (by decide : 0 < 8)] at hmetric
    have hterms : Refinement.solidTerms _ parent s = _ :=
      mapM_eq_error_of_first (x := ((_, _), 0)) (by rw [List.getElem?_zipIdx, hpoint]; rfl)
        (congrArg (Refinement.accept parent s 0) hmetric)
    simp only [Refinement.subcellTerms, hcell, lift_ok, ok_bind, hterms, error_bind]
    rfl

end Regular

end BoxMesh

end LowOrderRefinement
