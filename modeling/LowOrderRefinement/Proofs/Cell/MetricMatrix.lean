import Mathlib.LinearAlgebra.Matrix.NonsingularInverse
import Mathlib.LinearAlgebra.Matrix.Notation
import Mathlib.LinearAlgebra.Matrix.Symmetric
import LowOrderRefinement.Proofs.Cell.CellCoordinates
import LowOrderRefinement.Proofs.Cell.CellEnergy

/-! Jacobians and metrics as matrices. For a Jacobian with positive determinant the metric is
its adjugate times the transpose of that, scaled by the weight over the determinant; in
both dimensions this is the inverse of the Gram matrix of the Jacobian, scaled by the
weight times the determinant. -/

namespace LowOrderRefinement

open Matrix

variable {K : Type}

def Mat2.toMatrix (j : Mat2 K) : Matrix (Fin 2) (Fin 2) K := !![j.xx, j.xy; j.yx, j.yy]

def Mat3.toMatrix (j : Mat3 K) : Matrix (Fin 3) (Fin 3) K :=
  !![j.xx, j.xy, j.xz; j.yx, j.yy, j.yz; j.zx, j.zy, j.zz]

def Sym2.toMatrix (m : Sym2 K) : Matrix (Fin 2) (Fin 2) K := !![m.xx, m.xy; m.xy, m.yy]

def Sym3.toMatrix (m : Sym3 K) : Matrix (Fin 3) (Fin 3) K :=
  !![m.xx, m.xy, m.xz; m.xy, m.yy, m.yz; m.xz, m.yz, m.zz]

/-- The entries on and above the diagonal, row by row. -/
def upperTriangle {d : Nat} (M : Matrix (Fin d) (Fin d) K) : List K :=
  (List.finRange d).flatMap fun a => ((List.finRange d).filter (a ≤ ·)).map (M a)

theorem Sym2.toList_eq (m : Sym2 K) : m.toList = upperTriangle m.toMatrix := rfl

theorem Sym3.toList_eq (m : Sym3 K) : m.toList = upperTriangle m.toMatrix := rfl

theorem Sym2.toMatrix_inj {m m' : Sym2 K} (h : m.toMatrix = m'.toMatrix) : m = m' :=
  toList_inj (congrArg upperTriangle h)

theorem Sym3.toMatrix_inj {m m' : Sym3 K} (h : m.toMatrix = m'.toMatrix) : m = m' :=
  toList_inj (congrArg upperTriangle h)

variable [ExactField K]

theorem Mat2.det_toMatrix (j : Mat2 K) : j.toMatrix.det = j.det := by
  rw [toMatrix, det_fin_two_of, det, mul_comm j.yx]

namespace Metric

theorem det_toMatrix (j : Mat3 K) : j.toMatrix.det = solidDet j := by
  rw [Mat3.toMatrix, det_fin_three, solidDet]
  simp only [of_apply, cons_val]
  ring

/-- The metric of a Jacobian, as a matrix. -/
theorem planar_toMatrix {j : Mat2 K} {w : K} {m : Sym2 K} (h : planar j w = .ok m) :
    m.toMatrix = (w / j.toMatrix.det) • (j.toMatrix.adjugate * j.toMatrix.adjugateᵀ) := by
  obtain ⟨-, rfl⟩ := planar_eq_ok.mp h
  rw [Mat2.det_toMatrix, Mat2.toMatrix, adjugate_fin_two_of]
  ext a b
  rw [Matrix.smul_apply, mul_apply, Fin.sum_univ_two]
  fin_cases a <;> fin_cases b <;> simp [Sym2.toMatrix, -mul_eq_mul_left_iff] <;>
    ring

theorem solid_toMatrix {j : Mat3 K} {w : K} {m : Sym3 K} (h : solid j w = .ok m) :
    m.toMatrix = (w / j.toMatrix.det) • (j.toMatrix.adjugate * j.toMatrix.adjugateᵀ) := by
  obtain ⟨-, rfl⟩ := solid_eq_ok.mp h
  rw [det_toMatrix, Mat3.toMatrix, adjugate_fin_three_of]
  ext a b
  rw [Matrix.smul_apply, mul_apply, Fin.sum_univ_three]
  fin_cases a <;> fin_cases b <;>
    simp [Sym3.toMatrix, adjugateX, adjugateY, adjugateZ, Vec3.dot] <;> ring

end Metric

/-- The adjugate of a scaled matrix times its transpose is the inverse of the Gram matrix. -/
theorem adjugate_mul_transpose {ι : Type} [Fintype ι] [DecidableEq ι] {M : Matrix ι ι K}
    (h : M.det ≠ 0) : M.adjugate * M.adjugateᵀ = (M.det ^ 2) • (Mᵀ * M)⁻¹ := by
  have hadjugate : M.adjugate = M.det • M⁻¹ := by
    rw [inv_def, smul_smul, Ring.mul_inverse_cancel _ h.isUnit, one_smul]
  rw [hadjugate, transpose_smul, smul_mul, Matrix.mul_smul, smul_smul, transpose_nonsing_inv,
    ← Matrix.mul_inv_rev, sq]

namespace Kernel

def metric (dim : Dimension) (terms : Array K) (cell point : Nat) :
    Matrix (Fin dim.value) (Fin dim.value) K :=
  match dim with
  | .two => (planarMetric terms cell point).toMatrix
  | .three => (solidMetric terms cell point).toMatrix

end Kernel

end LowOrderRefinement
