import Mathlib.Algebra.BigOperators.Ring.Finset
import Mathlib.Algebra.Order.BigOperators.Group.Finset
import Mathlib.Tactic.FinCases
import LowOrderRefinement.Cell.Metric
import LowOrderRefinement.Cell.Shape
import LowOrderRefinement.Kernel
import LowOrderRefinement.Proofs.ExactField

/-! The energy of a function on the corners of a sub-cell. At every quadrature point the
gradient of the function consists of its differences along the edges that meet
there, and the metric is applied to it. Metrics that come from a Jacobian are
positive definite, so that the energy of a function is zero exactly when all
differences are, that is when the function has one value on all corners. -/

namespace LowOrderRefinement

open Finset

variable {K : Type} [ExactField K]

/-! ### Metrics -/

namespace Sym2

def form (m : Sym2 K) (u v : Vec2 K) : K :=
  m.xx * (u.x * v.x) + m.xy * (u.x * v.y + u.y * v.x) + m.yy * (u.y * v.y)

def PosDef (m : Sym2 K) : Prop := ∀ v : Vec2 K, 0 ≤ m.form v v ∧ (m.form v v = 0 → v = ⟨0, 0⟩)

theorem form_comm (m : Sym2 K) (u v : Vec2 K) : m.form u v = m.form v u := by
  simp only [form]
  ring

@[simp] theorem form_zero (m : Sym2 K) (u : Vec2 K) : m.form u ⟨0, 0⟩ = 0 := by
  simp [form]

end Sym2

namespace Sym3

def form (m : Sym3 K) (u v : Vec3 K) : K :=
  m.xx * (u.x * v.x) + m.yy * (u.y * v.y) + m.zz * (u.z * v.z) + m.xy * (u.x * v.y + u.y * v.x) +
    m.xz * (u.x * v.z + u.z * v.x) + m.yz * (u.y * v.z + u.z * v.y)

def PosDef (m : Sym3 K) : Prop :=
  ∀ v : Vec3 K, 0 ≤ m.form v v ∧ (m.form v v = 0 → v = ⟨0, 0, 0⟩)

theorem form_comm (m : Sym3 K) (u v : Vec3 K) : m.form u v = m.form v u := by
  simp only [form]
  ring

@[simp] theorem form_zero (m : Sym3 K) (u : Vec3 K) : m.form u ⟨0, 0, 0⟩ = 0 := by
  simp [form]

end Sym3

namespace Metric

/-- A metric is accepted when its determinant is positive, and else the determinant is reported. -/
theorem guarded_eq_ok {σ : Type} {det : K} {metric m : σ} :
    (if Scalar.isPos det then .ok metric else .error det : Except K σ) = .ok m ↔
      0 < det ∧ m = metric := by
  by_cases hdet : 0 < det
  · rw [if_pos (ExactField.isPos_eq_true.mpr hdet), Except.ok.injEq, and_iff_right hdet, eq_comm]
  · rw [if_neg (mt ExactField.isPos_eq_true.mp hdet)]
    simp only [reduceCtorEq, hdet, false_and]

theorem guarded_eq_error {σ : Type} {det : K} {metric : σ} (h : ¬0 < det) :
    (if Scalar.isPos det then .ok metric else .error det : Except K σ) = .error det :=
  if_neg (mt ExactField.isPos_eq_true.mp h)

theorem planar_eq_ok {j : Mat2 K} {w : K} {m : Sym2 K} :
    planar j w = .ok m ↔ 0 < j.det ∧ m =
      { xx := w / j.det * (j.xy * j.xy + j.yy * j.yy)
        xy := -(w / j.det) * (j.xy * j.xx + j.yy * j.yx)
        yy := w / j.det * (j.xx * j.xx + j.yx * j.yx) } :=
  guarded_eq_ok

theorem solid_eq_ok {j : Mat3 K} {w : K} {m : Sym3 K} :
    solid j w = .ok m ↔ 0 < solidDet j ∧ m =
      { xx := (adjugateX j).dot (adjugateX j) * (w / solidDet j)
        xy := (adjugateX j).dot (adjugateY j) * (w / solidDet j)
        xz := (adjugateX j).dot (adjugateZ j) * (w / solidDet j)
        yy := (adjugateY j).dot (adjugateY j) * (w / solidDet j)
        yz := (adjugateY j).dot (adjugateZ j) * (w / solidDet j)
        zz := (adjugateZ j).dot (adjugateZ j) * (w / solidDet j) } :=
  guarded_eq_ok

theorem planar_eq_error {j : Mat2 K} {w : K} (h : ¬0 < j.det) : planar j w = .error j.det :=
  guarded_eq_error h

theorem solid_eq_error {j : Mat3 K} {w : K} (h : ¬0 < solidDet j) :
    solid j w = .error (solidDet j) :=
  guarded_eq_error h

theorem form_planar {j : Mat2 K} {w : K} {m : Sym2 K} (h : planar j w = .ok m) (v : Vec2 K) :
    m.form v v = w / j.det *
      ((j.yy * v.x - j.yx * v.y) ^ 2 + (j.xy * v.x - j.xx * v.y) ^ 2) := by
  obtain ⟨-, rfl⟩ := planar_eq_ok.mp h
  simp only [Sym2.form]
  ring

theorem sq_add_sq_eq_zero {a b : K} (h : a ^ 2 + b ^ 2 = 0) : a = 0 ∧ b = 0 := by
  have ha := sq_nonneg a
  have hb := sq_nonneg b
  exact ⟨pow_eq_zero_iff two_ne_zero |>.mp (by linarith),
    pow_eq_zero_iff two_ne_zero |>.mp (by linarith)⟩

theorem posDef_planar {j : Mat2 K} {w : K} {m : Sym2 K} (hw : 0 < w) (h : planar j w = .ok m) :
    m.PosDef := by
  obtain ⟨hdet, -⟩ := planar_eq_ok.mp h
  have hscale : 0 < w / j.det := div_pos hw hdet
  intro v
  rw [form_planar h]
  refine ⟨by positivity, fun hzero => ?_⟩
  have hsq := (mul_eq_zero.mp hzero).resolve_left hscale.ne'
  obtain ⟨ha, hb⟩ := sq_add_sq_eq_zero hsq
  have hx : j.det * v.x = 0 := by
    calc j.det * v.x = j.xx * (j.yy * v.x - j.yx * v.y) - j.yx * (j.xy * v.x - j.xx * v.y) := by
          rw [Mat2.det]; ring
      _ = 0 := by rw [ha, hb]; ring
  have hy : j.det * v.y = 0 := by
    calc j.det * v.y = j.xy * (j.yy * v.x - j.yx * v.y) - j.yy * (j.xy * v.x - j.xx * v.y) := by
          rw [Mat2.det]; ring
      _ = 0 := by rw [ha, hb]; ring
  obtain ⟨x, y⟩ := v
  simp only [mul_eq_zero, hdet.ne', false_or] at hx hy
  rw [hx, hy]

/-- The combination of the rows of the adjugate with the given coefficients. -/
def adjugateMul (j : Mat3 K) (v : Vec3 K) : Vec3 K :=
  let x := adjugateX j
  let y := adjugateY j
  let z := adjugateZ j
  ⟨v.x * x.x + v.y * y.x + v.z * z.x, v.x * x.y + v.y * y.y + v.z * z.y,
    v.x * x.z + v.y * y.z + v.z * z.z⟩

theorem form_solid {j : Mat3 K} {w : K} {m : Sym3 K} (h : solid j w = .ok m) (v : Vec3 K) :
    m.form v v = w / solidDet j *
      ((adjugateMul j v).x ^ 2 + (adjugateMul j v).y ^ 2 + (adjugateMul j v).z ^ 2) := by
  obtain ⟨-, rfl⟩ := solid_eq_ok.mp h
  simp only [Sym3.form, adjugateMul, Vec3.dot]
  ring

/-- Multiplying the image under the adjugate by the Jacobian gives the vector times the
determinant. -/
theorem solidDet_mul (j : Mat3 K) (v : Vec3 K) :
    solidDet j * v.x = (adjugateMul j v).dot ⟨j.xx, j.yx, j.zx⟩ ∧
      solidDet j * v.y = (adjugateMul j v).dot ⟨j.xy, j.yy, j.zy⟩ ∧
      solidDet j * v.z = (adjugateMul j v).dot ⟨j.xz, j.yz, j.zz⟩ := by
  simp only [solidDet, adjugateMul, adjugateX, adjugateY, adjugateZ, Vec3.dot]
  refine ⟨?_, ?_, ?_⟩ <;> ring

theorem posDef_solid {j : Mat3 K} {w : K} {m : Sym3 K} (hw : 0 < w) (h : solid j w = .ok m) :
    m.PosDef := by
  obtain ⟨hdet, -⟩ := solid_eq_ok.mp h
  have hscale : 0 < w / solidDet j := div_pos hw hdet
  intro v
  rw [form_solid h]
  refine ⟨by positivity, fun hzero => ?_⟩
  have hsq := (mul_eq_zero.mp hzero).resolve_left hscale.ne'
  have hx2 := sq_nonneg (adjugateMul j v).x
  have hy2 := sq_nonneg (adjugateMul j v).y
  have hz2 := sq_nonneg (adjugateMul j v).z
  have hx : (adjugateMul j v).x = 0 := pow_eq_zero_iff two_ne_zero |>.mp (by linarith)
  have hy : (adjugateMul j v).y = 0 := pow_eq_zero_iff two_ne_zero |>.mp (by linarith)
  have hz : (adjugateMul j v).z = 0 := pow_eq_zero_iff two_ne_zero |>.mp (by linarith)
  have hmul := solidDet_mul j v
  simp only [Vec3.dot, hx, hy, hz, zero_mul, add_zero, mul_eq_zero, hdet.ne', false_or] at hmul
  obtain ⟨x, y, z⟩ := v
  obtain ⟨rfl, rfl, rfl⟩ : x = 0 ∧ y = 0 ∧ z = 0 := hmul
  rfl

end Metric

/-! ### Energies -/

/-- The differences of a function on the corners of a square along the edges at a corner. -/
def planarGradient (u : List Nat → K) (a b : Nat) : Vec2 K :=
  ⟨u [1, b] - u [0, b], u [a, 1] - u [a, 0]⟩

def solidGradient (u : List Nat → K) (a b c : Nat) : Vec3 K :=
  ⟨u [1, b, c] - u [0, b, c], u [a, 1, c] - u [a, 0, c], u [a, b, 1] - u [a, b, 0]⟩

namespace Kernel

/-- The energy of two functions on the corners of a sub-cell. -/
def energy (dim : Dimension) (terms : Array K) (cell : Nat) (u v : List Nat → K) : K :=
  match dim with
  | .two => ∑ q ∈ range 4, (planarMetric terms cell q).form
      (planarGradient u (q % 2) (q / 2)) (planarGradient v (q % 2) (q / 2))
  | .three => ∑ q ∈ range 8, (solidMetric terms cell q).form
      (solidGradient u (q % 2) (q / 2 % 2) (q / 4)) (solidGradient v (q % 2) (q / 2 % 2) (q / 4))

/-- All metrics of a sub-cell are positive definite. -/
def Elliptic (dim : Dimension) (terms : Array K) (cell : Nat) : Prop :=
  match dim with
  | .two => ∀ q < 4, (planarMetric terms cell q).PosDef
  | .three => ∀ q < 8, (solidMetric terms cell q).PosDef

variable {dim : Dimension} {terms : Array K} {cell : Nat} {u u' v v' : List Nat → K}

theorem energy_comm (dim : Dimension) (terms : Array K) (cell : Nat) (u v : List Nat → K) :
    energy dim terms cell u v = energy dim terms cell v u := by
  cases dim with
  | two => exact sum_congr rfl fun q _ => Sym2.form_comm _ _ _
  | three => exact sum_congr rfl fun q _ => Sym3.form_comm _ _ _

theorem energy_congr (hu : ∀ a ∈ Shape.vertices dim, u a = u' a)
    (hv : ∀ a ∈ Shape.vertices dim, v a = v' a) :
    energy dim terms cell u v = energy dim terms cell u' v' := by
  cases dim with
  | two =>
    simp only [Shape.vertices, Shape.squareVertices, List.map_cons, List.map_nil,
      List.forall_mem_cons] at hu hv
    simp only [energy, planarGradient, sum_range_succ, sum_range_zero, Nat.reduceMod,
      Nat.reduceDiv, hu, hv]
  | three =>
    simp only [Shape.vertices, Shape.cubeVertices, List.map_cons, List.map_nil,
      List.forall_mem_cons] at hu hv
    simp only [energy, solidGradient, sum_range_succ, sum_range_zero, Nat.reduceMod,
      Nat.reduceDiv, hu, hv]

theorem energy_const (dim : Dimension) (terms : Array K) (cell : Nat) (u : List Nat → K) (c : K) :
    energy dim terms cell u (fun _ => c) = 0 := by
  cases dim with
  | two => exact sum_eq_zero fun q _ => by simp [planarGradient]
  | three => exact sum_eq_zero fun q _ => by simp [solidGradient]

theorem energy_nonneg (h : Elliptic dim terms cell) (u : List Nat → K) :
    0 ≤ energy dim terms cell u u := by
  cases dim with
  | two => exact sum_nonneg fun q hq => (h q (mem_range.mp hq) _).1
  | three => exact sum_nonneg fun q hq => (h q (mem_range.mp hq) _).1

theorem gradient_eq_zero_of_energy (h : Elliptic .two terms cell)
    (hzero : energy .two terms cell u u = 0) {q : Nat} (hq : q < 4) :
    planarGradient u (q % 2) (q / 2) = ⟨0, 0⟩ := by
  have hall := (sum_eq_zero_iff_of_nonneg fun q hq => (h q (mem_range.mp hq) _).1).mp hzero
  exact (h q hq _).2 (hall q (mem_range.mpr hq))

theorem solidGradient_eq_zero_of_energy (h : Elliptic .three terms cell)
    (hzero : energy .three terms cell u u = 0) {q : Nat} (hq : q < 8) :
    solidGradient u (q % 2) (q / 2 % 2) (q / 4) = ⟨0, 0, 0⟩ := by
  have hall := (sum_eq_zero_iff_of_nonneg fun q hq => (h q (mem_range.mp hq) _).1).mp hzero
  exact (h q hq _).2 (hall q (mem_range.mpr hq))

/-- The energy of a function is zero exactly when it has one value on all corners. -/
theorem energy_eq_zero_iff (h : Elliptic dim terms cell) :
    energy dim terms cell u u = 0 ↔
      ∀ a ∈ Shape.vertices dim, ∀ b ∈ Shape.vertices dim, u a = u b := by
  constructor
  · intro hzero
    cases dim with
    | two =>
      have h0 := gradient_eq_zero_of_energy h hzero (show 0 < 4 by decide)
      have h3 := gradient_eq_zero_of_energy h hzero (show 3 < 4 by decide)
      simp only [planarGradient, Vec2.mk.injEq, sub_eq_zero, Nat.reduceMod, Nat.reduceDiv] at h0 h3
      simp only [Shape.vertices, Shape.squareVertices, List.map_cons, List.map_nil,
        List.forall_mem_cons, List.not_mem_nil, false_implies, implies_true, and_true]
      simp only [h0, h3, and_self]
    | three =>
      have h0 := solidGradient_eq_zero_of_energy h hzero (show 0 < 8 by decide)
      have h3 := solidGradient_eq_zero_of_energy h hzero (show 3 < 8 by decide)
      have h5 := solidGradient_eq_zero_of_energy h hzero (show 5 < 8 by decide)
      have h6 := solidGradient_eq_zero_of_energy h hzero (show 6 < 8 by decide)
      simp only [solidGradient, Vec3.mk.injEq, sub_eq_zero, Nat.reduceMod, Nat.reduceDiv]
        at h0 h3 h5 h6
      simp only [Shape.vertices, Shape.cubeVertices, List.map_cons, List.map_nil,
        List.forall_mem_cons, List.not_mem_nil, false_implies, implies_true, and_true]
      simp only [h0, h3, h5, h6, and_self]
  · intro hone
    have hconst : ∀ a ∈ Shape.vertices dim, u a = u (List.replicate dim.value 0) := by
      intro a ha
      exact hone a ha _ (by cases dim <;> decide)
    rw [energy_congr (fun _ _ => rfl) hconst, energy_const]

end Kernel

end LowOrderRefinement
