import LowOrderRefinement.Proofs.ExactField
import LowOrderRefinement.DirectStiffness
import LowOrderRefinement.Proofs.Sparse.DenseAdditions
import LowOrderRefinement.Proofs.Cell.ClosedForms

/-! The textbook stiffness matrix of a cell. The metric of a Jacobian evaluates two
reference gradients as the dot product of their images under the inverse of the
transposed Jacobian, which exists where the metric does. So the entries of the
textbook matrix are the products of the shape functions of the corners, and its
form at the values of two functions is the energy of the functions. -/

namespace LowOrderRefinement

open Finset

variable {K : Type} [ExactField K]

/-! ### Pulled back gradients -/

namespace Metric

/-- Where a planar metric exists, gradients can be pulled back, and it evaluates them by their
images. -/
theorem exists_inverse_planar {j : Mat2 K} {w : K} {m : Sym2 K} (h : planar j w = .ok m) :
    ∃ inverse, j.inverse = some inverse ∧ ∀ u v : Vec2 K,
      (inverse.transpose.mulVec u).dot (inverse.transpose.mulVec v) * (w * j.det) = m.form u v := by
  obtain ⟨hdet, rfl⟩ := planar_eq_ok.mp h
  have hzero : ¬Scalar.isZero j.det = true := by
    rw [ExactField.isZero_eq_true]
    exact hdet.ne'
  refine ⟨_, by rw [Mat2.inverse, if_neg hzero], fun u v => ?_⟩
  simp only [Mat2.transpose, Mat2.mulVec, Vec2.dot, Sym2.form]
  field_simp
  ring

theorem solidDet_eq (j : Mat3 K) : solidDet j = j.det := by
  simp only [solidDet, Mat3.det]
  ring

theorem transpose_inverse_mulVec {j inverse : Mat3 K} (h : j.inverse = some inverse) (v : Vec3 K) :
    inverse.transpose.mulVec v =
      ⟨(adjugateMul j v).x / solidDet j, (adjugateMul j v).y / solidDet j,
        (adjugateMul j v).z / solidDet j⟩ := by
  rw [Mat3.inverse] at h
  split at h
  · cases h
  · obtain rfl := Option.some.inj h
    simp only [Mat3.transpose, Mat3.mulVec, adjugateMul, adjugateX, adjugateY, adjugateZ,
      solidDet_eq, Vec3.mk.injEq]
    refine ⟨?_, ?_, ?_⟩ <;> ring

theorem exists_inverse_solid {j : Mat3 K} {w : K} {m : Sym3 K} (h : solid j w = .ok m) :
    ∃ inverse, j.inverse = some inverse ∧ ∀ u v : Vec3 K,
      (inverse.transpose.mulVec u).dot (inverse.transpose.mulVec v) * (w * j.det) = m.form u v := by
  obtain ⟨hdet, rfl⟩ := solid_eq_ok.mp h
  have hzero : ¬Scalar.isZero j.det = true := by
    rw [ExactField.isZero_eq_true, ← solidDet_eq]
    exact hdet.ne'
  obtain ⟨inverse, hinverse⟩ : ∃ inverse, j.inverse = some inverse :=
    ⟨_, by rw [Mat3.inverse, if_neg hzero]⟩
  refine ⟨inverse, hinverse, fun u v => ?_⟩
  rw [transpose_inverse_mulVec hinverse, transpose_inverse_mulVec hinverse, ← solidDet_eq]
  simp only [Vec3.dot, Sym3.form, adjugateMul]
  have hne := hdet.ne'
  field_simp
  ring

end Metric

/-! ### Matrices of pairs -/

namespace DirectStiffness

variable {β γ : Type}

/-- The matrix, by rows, that a function gives at all pairs. -/
def pairs (vs : List β) (f : β → β → K) : List (List K) := vs.map fun u => vs.map (f u)

/-- The bilinear form of the matrix of a function at all pairs. -/
def pairSum (vs : List β) (f : β → β → K) (x y : β → K) : K :=
  (vs.map fun u => (vs.map fun v => x u * f u v * y v).sum).sum

theorem addRows_pairs (vs : List β) (f g : β → β → K) :
    addRows (pairs vs f) (pairs vs g) = pairs vs fun u v => f u v + g u v := by
  simp only [addRows, pairs, List.zipWith_map, List.zipWith_self]

theorem foldlM_addRows {vs : List β} {ps : List γ} {point : γ → Checked (List (List K))}
    {f : γ → β → β → K} (h : ∀ p ∈ ps, point p = .ok (pairs vs (f p))) (start : β → β → K) :
    ps.foldlM (fun acc p => do return addRows acc (← point p)) (pairs vs start) =
      .ok (pairs vs fun u v => start u v + (ps.map fun p => f p u v).sum) := by
  induction ps generalizing start with
  | nil => simp [pure, Except.pure]
  | cons p ps ih =>
    obtain ⟨hp, hps⟩ := List.forall_mem_cons.mp h
    have hstep : (do return addRows (pairs vs start) (← point p) : Checked (List (List K))) =
        .ok (pairs vs fun u v => start u v + f p u v) := by
      rw [hp, ← addRows_pairs]
      rfl
    rw [List.foldlM_cons, hstep, ok_bind, ih hps]
    simp only [List.map_cons, List.sum_cons, add_assoc]

theorem pairSum_sum (vs : List β) (ps : List γ) (f : γ → β → β → K) (x y : β → K) :
    pairSum vs (fun u v => (ps.map fun p => f p u v).sum) x y =
      (ps.map fun p => pairSum vs (f p) x y).sum := by
  induction ps with
  | nil => simp [pairSum]
  | cons p ps ih =>
    rw [List.map_cons, List.sum_cons, ← ih]
    simp only [pairSum, List.map_cons, List.sum_cons, mul_add, add_mul, List.sum_map_add]

/-- Where every point has a number, the matrix of the points sums over the numbers. -/
theorem foldlM_addRows_points {vs : List β} {ps : List γ} {point : γ → Checked (List (List K))}
    {number : γ → Nat} {n : Nat} (hnumber : (ps.map number).Perm (List.range n))
    {f : Nat → β → β → K} (h : ∀ p ∈ ps, point p = .ok (pairs vs (f (number p)))) :
    ps.foldlM (fun acc p => do return addRows acc (← point p)) (pairs vs fun _ _ => 0) =
      .ok (pairs vs fun u v => ∑ q ∈ range n, f q u v) := by
  rw [foldlM_addRows h]
  congr
  funext u v
  have hsum := (hnumber.map fun q => f q u v).sum_eq
  rw [List.map_map, sum_map_range] at hsum
  rw [zero_add, ← hsum]
  rfl

/-- A matrix of bilinear values has the value of two linear combinations as its form. -/
theorem pairSum_bilinear {V : Type} {form : V → V → K} (hcomm : ∀ u v, form u v = form v u)
    {vs : List β} {g : β → V} {combine : (β → K) → V}
    (hleft : ∀ x w, (vs.map fun u => x u * form (g u) w).sum = form (combine x) w)
    (x y : β → K) :
    pairSum vs (fun u v => form (g u) (g v)) x y = form (combine x) (combine y) := by
  rw [← hleft, pairSum]
  refine congrArg List.sum (List.map_congr_left fun u _ => ?_)
  rw [hcomm, ← hleft, ← List.sum_map_mul_left]
  simp only [hcomm (g u), mul_assoc, mul_comm (y _)]

theorem pairSum_forms {V : Type} {vs : List β} {n : Nat} (form : Nat → V → V → K)
    (g : Nat → β → V) (combine : Nat → (β → K) → V)
    (h : ∀ q < n, ∀ x y, pairSum vs (fun u v => form q (g q u) (g q v)) x y =
      form q (combine q x) (combine q y)) (x y : β → K) :
    pairSum vs (fun u v => ∑ q ∈ range n, form q (g q u) (g q v)) x y =
      ∑ q ∈ range n, form q (combine q x) (combine q y) := by
  simp only [← sum_map_range]
  rw [pairSum_sum]
  exact congrArg List.sum (List.map_congr_left fun q hq => h q (List.mem_range.mp hq) x y)

end DirectStiffness

/-! ### Matrices of cells -/

theorem Quadrature.planarPoint_corner {a : Nat} (ha : a < 2) (b : Nat) :
    (⟨Scalar.ofNat a, Scalar.ofNat b⟩ : Vec2 K) = planarPoint (a + 2 * b) := by
  rw [planarPoint, ExactField.ofNat_eq, ExactField.ofNat_eq, show (a + 2 * b) % 2 = a by omega,
    show (a + 2 * b) / 2 = b by omega]

theorem Quadrature.solidPoint_corner {a b : Nat} (ha : a < 2) (hb : b < 2) (c : Nat) :
    (⟨Scalar.ofNat a, Scalar.ofNat b, Scalar.ofNat c⟩ : Vec3 K) =
      solidPoint (a + 2 * b + 4 * c) := by
  rw [solidPoint, ExactField.ofNat_eq, ExactField.ofNat_eq, ExactField.ofNat_eq,
    show (a + 2 * b + 4 * c) % 2 = a by omega, show (a + 2 * b + 4 * c) / 2 % 2 = b by omega,
    show (a + 2 * b + 4 * c) / 4 = c by omega]

namespace Quadrilateral

/-- The gradient at a point of the shape function of a corner. -/
def gradient (ξ : Vec2 K) : List Nat → Vec2 K
  | [a, b] => ⟨Shape.slope a * Shape.value b ξ.y, Shape.value a ξ.x * Shape.slope b⟩
  | _ => ⟨0, 0⟩

theorem gradients_eq (ξ : Vec2 K) : gradients ξ = (Shape.vertices .two).map (gradient ξ) := rfl

/-- The differences of a function at a corner combine the gradients of the shape functions. -/
theorem sum_gradient (u : List Nat → K) {q : Nat} (hq : q < 4) :
    (⟨((Shape.vertices .two).map fun v => u v * (gradient (Quadrature.planarPoint q) v).x).sum,
      ((Shape.vertices .two).map fun v => u v * (gradient (Quadrature.planarPoint q) v).y).sum⟩ :
      Vec2 K) = planarGradient u (q % 2) (q / 2) := by
  simp only [Shape.vertices, Shape.squareVertices, List.map_cons, List.map_nil, List.sum_cons,
    List.sum_nil, gradient, Quadrature.planarPoint, Shape.slope, Shape.value, planarGradient]
  interval_cases q <;> simp <;> constructor <;> ring

end Quadrilateral

namespace Hexahedron

def gradient (ξ : Vec3 K) : List Nat → Vec3 K
  | [a, b, c] => ⟨Shape.slope a * Shape.value b ξ.y * Shape.value c ξ.z,
      Shape.value a ξ.x * Shape.slope b * Shape.value c ξ.z,
      Shape.value a ξ.x * Shape.value b ξ.y * Shape.slope c⟩
  | _ => ⟨0, 0, 0⟩

theorem gradients_eq (ξ : Vec3 K) : gradients ξ = (Shape.vertices .three).map (gradient ξ) := rfl

theorem sum_gradient (u : List Nat → K) {q : Nat} (hq : q < 8) :
    (⟨((Shape.vertices .three).map fun v => u v * (gradient (Quadrature.solidPoint q) v).x).sum,
      ((Shape.vertices .three).map fun v => u v * (gradient (Quadrature.solidPoint q) v).y).sum,
      ((Shape.vertices .three).map fun v => u v * (gradient (Quadrature.solidPoint q) v).z).sum⟩ :
      Vec3 K) = solidGradient u (q % 2) (q / 2 % 2) (q / 4) := by
  simp only [Shape.vertices, Shape.cubeVertices, List.map_cons, List.map_nil, List.sum_cons,
    List.sum_nil, gradient, Quadrature.solidPoint, Shape.slope, Shape.value, solidGradient]
  interval_cases q <;> simp <;> refine ⟨?_, ?_, ?_⟩ <;> ring

end Hexahedron

/-! ### Products of shape functions -/

namespace Kernel

/-- The product of the shape functions of two corners of a sub-cell: the metric applied to their
gradients on the reference cell, summed over the points of the vertex rule. -/
def cornerProduct (dim : Dimension) (terms : Array K) (cell : Nat) (v w : List Nat) : K :=
  match dim with
  | .two => ∑ q ∈ range 4, (planarMetric terms cell q).form
      (Quadrilateral.gradient (Quadrature.planarPoint q) v)
      (Quadrilateral.gradient (Quadrature.planarPoint q) w)
  | .three => ∑ q ∈ range 8, (solidMetric terms cell q).form
      (Hexahedron.gradient (Quadrature.solidPoint q) v)
      (Hexahedron.gradient (Quadrature.solidPoint q) w)

/-- The energy of two functions is the form of the products of the shape functions. -/
theorem energy_eq_pairSum (dim : Dimension) (terms : Array K) (cell : Nat) (u v : List Nat → K) :
    energy dim terms cell u v =
      DirectStiffness.pairSum (Shape.vertices dim) (cornerProduct dim terms cell) u v := by
  cases dim with
  | two =>
    refine (DirectStiffness.pairSum_forms (fun q => (planarMetric terms cell q).form)
      (fun q => Quadrilateral.gradient (Quadrature.planarPoint q))
      (fun q x => planarGradient x (q % 2) (q / 2)) (fun q hq x y => ?_) u v).symm
    have hform := DirectStiffness.pairSum_bilinear (Sym2.form_comm (planarMetric terms cell q))
      (fun x w => Sym2.sum_form_left _ (Quadrilateral.gradient (Quadrature.planarPoint q)) x w
        (Shape.vertices .two)) x y
    rwa [Quadrilateral.sum_gradient x hq, Quadrilateral.sum_gradient y hq] at hform
  | three =>
    refine (DirectStiffness.pairSum_forms (fun q => (solidMetric terms cell q).form)
      (fun q => Hexahedron.gradient (Quadrature.solidPoint q))
      (fun q x => solidGradient x (q % 2) (q / 2 % 2) (q / 4)) (fun q hq x y => ?_) u v).symm
    have hform := DirectStiffness.pairSum_bilinear (Sym3.form_comm (solidMetric terms cell q))
      (fun x w => Sym3.sum_form_left _ (Hexahedron.gradient (Quadrature.solidPoint q)) x w
        (Shape.vertices .three)) x y
    rwa [Hexahedron.sum_gradient x hq, Hexahedron.sum_gradient y hq] at hform

end Kernel

namespace DirectStiffness

variable {terms : Array K} {k : Nat}

/-- The matrix of a cell holds the products of the shape functions. -/
theorem planarCell_eq {cell : Quadrilateral K}
    (h : ∀ q < 4, Metric.planar (cell.jacobianOfGradients (Quadrature.planarPoint q)) (1 / 4) =
      .ok (Kernel.planarMetric terms k q)) :
    planarCell cell = .ok (pairs (Shape.vertices .two) (Kernel.cornerProduct .two terms k)) := by
  -- the points are the corners themselves, in the order of the vertices
  have hnumber : (Shape.squareVertices.map fun p => p.1 + 2 * p.2).Perm (List.range 4) := by
    decide
  have hpoints : ∀ p ∈ Shape.squareVertices,
      planarPoint cell ⟨Scalar.ofNat p.1, Scalar.ofNat p.2⟩ =
        .ok (pairs (Shape.vertices .two) fun v w =>
          (Kernel.planarMetric terms k (p.1 + 2 * p.2)).form
            (Quadrilateral.gradient (Quadrature.planarPoint (p.1 + 2 * p.2)) v)
            (Quadrilateral.gradient (Quadrature.planarPoint (p.1 + 2 * p.2)) w)) := by
    intro p hp
    obtain ⟨ha, hb⟩ : p.1 < 2 ∧ p.2 < 2 := by
      revert p
      decide
    obtain ⟨inverse, hinverse, hform⟩ := Metric.exists_inverse_planar (h (p.1 + 2 * p.2) (by omega))
    rw [Quadrature.planarPoint_corner ha]
    simp only [planarPoint, hinverse, ExactField.recip_eq, Nat.cast_ofNat,
      Quadrilateral.gradients_eq, List.map_map, Function.comp_def, pairs, hform]
  exact foldlM_addRows_points hnumber (f := fun q v w =>
    (Kernel.planarMetric terms k q).form (Quadrilateral.gradient (Quadrature.planarPoint q) v)
      (Quadrilateral.gradient (Quadrature.planarPoint q) w)) hpoints

theorem solidCell_eq {cell : Hexahedron K}
    (h : ∀ q < 8, Metric.solid (cell.jacobianOfGradients (Quadrature.solidPoint q)) (1 / 8) =
      .ok (Kernel.solidMetric terms k q)) :
    solidCell cell = .ok (pairs (Shape.vertices .three) (Kernel.cornerProduct .three terms k)) := by
  have hnumber : (Shape.cubeVertices.map fun p => p.1 + 2 * p.2.1 + 4 * p.2.2).Perm
      (List.range 8) := by decide
  have hpoints : ∀ p ∈ Shape.cubeVertices,
      solidPoint cell ⟨Scalar.ofNat p.1, Scalar.ofNat p.2.1, Scalar.ofNat p.2.2⟩ =
        .ok (pairs (Shape.vertices .three) fun v w =>
          (Kernel.solidMetric terms k (p.1 + 2 * p.2.1 + 4 * p.2.2)).form
            (Hexahedron.gradient (Quadrature.solidPoint (p.1 + 2 * p.2.1 + 4 * p.2.2)) v)
            (Hexahedron.gradient (Quadrature.solidPoint (p.1 + 2 * p.2.1 + 4 * p.2.2)) w)) := by
    intro p hp
    obtain ⟨ha, hb, hc⟩ : p.1 < 2 ∧ p.2.1 < 2 ∧ p.2.2 < 2 := by
      revert p
      decide
    obtain ⟨inverse, hinverse, hform⟩ :=
      Metric.exists_inverse_solid (h (p.1 + 2 * p.2.1 + 4 * p.2.2) (by omega))
    rw [Quadrature.solidPoint_corner ha hb]
    simp only [solidPoint, hinverse, ExactField.recip_eq, Nat.cast_ofNat,
      Hexahedron.gradients_eq, List.map_map, Function.comp_def, pairs, hform]
  exact foldlM_addRows_points hnumber (f := fun q v w =>
    (Kernel.solidMetric terms k q).form (Hexahedron.gradient (Quadrature.solidPoint q) v)
      (Hexahedron.gradient (Quadrature.solidPoint q) w)) hpoints

end DirectStiffness

end LowOrderRefinement
