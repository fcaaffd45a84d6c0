import Mathlib.Tactic.LinearCombination
import LowOrderRefinement.Proofs.BoxMesh.AffineMetric
import LowOrderRefinement.Proofs.Cell.MetricTensor
import LowOrderRefinement.Proofs.Invariance.Homogeneity
import LowOrderRefinement.Proofs.Invariance.Isolation
import LowOrderRefinement.Proofs.Evaluation.PointTerms

/-! Similarities. When all vertices are rotated, scaled and translated alike, then every
Jacobian is rotated and scaled; its determinant is multiplied by a power of the scale
and keeps its sign, and its metric is multiplied by another power, because the
rotation cancels from the adjugate and its transpose. So the same determinants are
refused, and the matrix is that of the vertices before, times a number. -/

namespace LowOrderRefinement

open Matrix

variable {K : Type} [ExactField K] {d : Nat}

/-- A rotation and a scaling about the origin, followed by a translation. -/
structure Similarity (K : Type) [ExactField K] (d : Nat) where
  scale : K
  rotation : Matrix (Fin d) (Fin d) K
  translation : Fin d → K
  scale_pos : 0 < scale
  transpose_mul_rotation : rotationᵀ * rotation = 1
  det_rotation : rotation.det = 1

namespace Similarity

def apply (σ : Similarity K d) (x : Fin d → K) : Fin d → K :=
  σ.scale • (σ.rotation *ᵥ x) + σ.translation

/-- The images of points that are listed coordinate by coordinate. -/
def image [NeZero d] (σ : Similarity K d) (xs : List K) : List K :=
  (List.range xs.length).map fun k =>
    σ.apply (fun axis => xs.getD (d * (k / d) + axis) 0) (Fin.ofNat d k)

@[simp] theorem length_image [NeZero d] (σ : Similarity K d) (xs : List K) :
    (σ.image xs).length = xs.length := by
  rw [image, List.length_map, List.length_range]

/-! ### Matrices -/

section Matrices

variable (σ : Similarity K d) (J : Matrix (Fin d) (Fin d) K)

theorem adjugate_rotation : σ.rotation.adjugate = σ.rotationᵀ := by
  calc σ.rotation.adjugate = (σ.rotationᵀ * σ.rotation) * σ.rotation.adjugate := by
        rw [σ.transpose_mul_rotation, Matrix.one_mul]
    _ = σ.rotationᵀ * (σ.rotation * σ.rotation.adjugate) := Matrix.mul_assoc _ _ _
    _ = σ.rotationᵀ := by rw [mul_adjugate, σ.det_rotation, one_smul, Matrix.mul_one]

theorem det_smul_rotation_mul : (σ.scale • (σ.rotation * J)).det = σ.scale ^ d * J.det := by
  rw [det_smul, det_mul, σ.det_rotation, one_mul, Fintype.card_fin]

theorem adjugate_mul_transpose_image :
    (σ.scale • (σ.rotation * J)).adjugate * (σ.scale • (σ.rotation * J)).adjugateᵀ =
      (σ.scale ^ (d - 1)) ^ 2 • (J.adjugate * J.adjugateᵀ) := by
  rw [adjugate_smul, adjugate_mul_distrib, σ.adjugate_rotation, transpose_smul, smul_mul,
    Matrix.mul_smul, smul_smul, transpose_mul, transpose_transpose, Matrix.mul_assoc,
    ← Matrix.mul_assoc σ.rotationᵀ, σ.transpose_mul_rotation, Matrix.one_mul, Fintype.card_fin, sq]

end Matrices

/-- The metric of a Jacobian that is rotated and scaled. -/
theorem metric_image {k : Nat} (σ : Similarity K (k + 2))
    (J : Matrix (Fin (k + 2)) (Fin (k + 2)) K) (w : K) :
    (w / (σ.scale • (σ.rotation * J)).det) •
        ((σ.scale • (σ.rotation * J)).adjugate * (σ.scale • (σ.rotation * J)).adjugateᵀ) =
      σ.scale ^ k • ((w / J.det) • (J.adjugate * J.adjugateᵀ)) := by
  have hscale : σ.scale ≠ 0 := σ.scale_pos.ne'
  rw [σ.adjugate_mul_transpose_image, σ.det_smul_rotation_mul, smul_smul, smul_smul,
    show k + 2 - 1 = k + 1 from rfl]
  congr 1
  field_simp
  ring

def planar (σ : Similarity K 2) (v : Vec2 K) : Vec2 K :=
  ⟨σ.apply ![v.x, v.y] 0, σ.apply ![v.x, v.y] 1⟩

def solid (σ : Similarity K 3) (v : Vec3 K) : Vec3 K :=
  ⟨σ.apply ![v.x, v.y, v.z] 0, σ.apply ![v.x, v.y, v.z] 1, σ.apply ![v.x, v.y, v.z] 2⟩

theorem apply_eq (σ : Similarity K d) (x : Fin d → K) (a : Fin d) :
    σ.apply x a = σ.scale * ∑ b, σ.rotation a b * x b + σ.translation a := by
  rw [apply, Pi.add_apply, Pi.smul_apply, smul_eq_mul, mulVec, dotProduct]

theorem image_append [NeZero d] (σ : Similarity K d) {point : List K} (h : point.length = d)
    (xs : List K) :
    σ.image (point ++ xs) = List.ofFn (σ.apply fun axis => point.getD axis 0) ++ σ.image xs := by
  have hd : 0 < d := Nat.pos_of_neZero d
  rw [image, List.length_append, h, List.range_add, List.map_append, List.map_map]
  congr 1
  · refine List.ext_getElem (by simp) fun k hk _ => ?_
    have hk : k < d := by simpa using hk
    have hcoordinate (axis : Fin d) :
        (point ++ xs).getD (d * (k / d) + axis) 0 = point.getD axis 0 := by
      rw [Nat.div_eq_of_lt hk, Nat.mul_zero, Nat.zero_add, List.getD_eq_getElem?_getD,
        List.getElem?_append_left (axis.isLt.trans_eq h.symm), List.getD_eq_getElem?_getD]
    have haxis : Fin.ofNat d k = ⟨k, hk⟩ := Fin.ext (Nat.mod_eq_of_lt hk)
    simp only [List.getElem_map, List.getElem_range, List.getElem_ofFn, hcoordinate, haxis]
  · refine List.map_congr_left fun k _ => ?_
    have hcoordinate (axis : Fin d) :
        (point ++ xs).getD (d * ((d + k) / d) + axis) 0 = xs.getD (d * (k / d) + axis) 0 := by
      rw [Nat.add_div_left k hd, Nat.mul_succ, Nat.add_comm _ d, Nat.add_assoc,
        List.getD_eq_getElem?_getD, List.getElem?_append_right (h.trans_le (Nat.le_add_right _ _)), h,
        Nat.add_sub_cancel_left, List.getD_eq_getElem?_getD]
    have haxis : Fin.ofNat d (d + k) = Fin.ofNat d k := Fin.ext (Nat.add_mod_left d k)
    simp only [Function.comp_apply, hcoordinate, haxis]

/-- Points are moved one by one when each of them is. -/
theorem image_flatMap [NeZero d] (σ : Similarity K d) {V : Type} {toList : V → List K}
    {move : V → V} (hlength : ∀ v, (toList v).length = d)
    (hmove : ∀ v, List.ofFn (σ.apply fun axis => (toList v).getD axis 0) = toList (move v))
    (vs : List V) : σ.image (vs.flatMap toList) = (vs.map move).flatMap toList := by
  induction vs with
  | nil => rfl
  | cons v vs ih =>
    rw [List.flatMap_cons, List.map_cons, List.flatMap_cons, σ.image_append (hlength v), hmove, ih]

theorem toList_planar (σ : Similarity K 2) (v : Vec2 K) :
    List.ofFn (σ.apply fun axis => v.toList.getD axis 0) = (σ.planar v).toList := by
  have hpoint : (fun axis : Fin 2 => v.toList.getD axis 0) = ![v.x, v.y] := by
    funext axis
    fin_cases axis <;> rfl
  rw [hpoint]
  simp [planar, Vec2.toList]

theorem toList_solid (σ : Similarity K 3) (v : Vec3 K) :
    List.ofFn (σ.apply fun axis => v.toList.getD axis 0) = (σ.solid v).toList := by
  have hpoint : (fun axis : Fin 3 => v.toList.getD axis 0) = ![v.x, v.y, v.z] := by
    funext axis
    fin_cases axis <;> rfl
  rw [hpoint]
  simp [solid, Vec3.toList]

end Similarity

/-! ### Cells -/

def Quadrilateral.map {α β : Type} (f : Vec2 α → Vec2 β) (cell : Quadrilateral α) :
    Quadrilateral β :=
  ⟨f cell.v0, f cell.v1, f cell.v2, f cell.v3⟩

def Hexahedron.map {α β : Type} (f : Vec3 α → Vec3 β) (cell : Hexahedron α) : Hexahedron β :=
  ⟨f cell.v0, f cell.v1, f cell.v2, f cell.v3, f cell.v4, f cell.v5, f cell.v6, f cell.v7⟩

theorem Quadrilateral.ofCoordinates_image (σ : Similarity K 2) (xs : List K) :
    ofCoordinates (σ.image xs) = (ofCoordinates xs).map (Quadrilateral.map σ.planar) :=
  decodes.decode_map (f := Quadrilateral.map σ.planar) σ.length_image
    (fun cell => σ.image_flatMap (fun _ => rfl) σ.toList_planar cell.vertices) xs

theorem Quadrilateral.jacobian_map (σ : Similarity K 2) (cell : Quadrilateral K) (ξ : Vec2 K) :
    ((cell.map σ.planar).jacobian ξ).toMatrix =
      σ.scale • (σ.rotation * (cell.jacobian ξ).toMatrix) := by
  ext a b
  rw [Matrix.smul_apply, mul_apply, Fin.sum_univ_two]
  fin_cases a <;> fin_cases b <;>
    simp [Mat2.toMatrix, jacobian, slopeX, slopeY, map, Similarity.planar, Similarity.apply_eq,
      Fin.sum_univ_two] <;> ring

namespace Hexahedron

theorem ofCoordinates_image (σ : Similarity K 3) (xs : List K) :
    ofCoordinates (σ.image xs) = (ofCoordinates xs).map (Hexahedron.map σ.solid) :=
  decodes.decode_map (f := Hexahedron.map σ.solid) σ.length_image
    (fun cell => σ.image_flatMap (fun _ => rfl) σ.toList_solid cell.vertices) xs

def slope (cell : Hexahedron K) (ξ : Vec3 K) (derivative f : Vec3 K → K) : K :=
  ((derivatives ξ).zip cell.vertices).foldl (fun acc (w, v) => acc + derivative w * f v) 0

/-- The derivatives of the shape functions cancel, as these functions sum to one. -/
theorem sum_derivatives (ξ : Vec3 K) :
    ((derivatives ξ).map (·.x)).sum = 0 ∧ ((derivatives ξ).map (·.y)).sum = 0 ∧
      ((derivatives ξ).map (·.z)).sum = 0 := by
  simp only [derivatives, List.map_cons, List.map_nil, List.sum_cons, List.sum_nil]
  refine ⟨?_, ?_, ?_⟩ <;> ring

/-- A coordinate of the images has the derivative of a combination of the coordinates; the
translation has none. -/
theorem slope_apply (σ : Similarity K 3) (cell : Hexahedron K) {ξ : Vec3 K}
    {derivative : Vec3 K → K} (h : ((derivatives ξ).map derivative).sum = 0) (a : Fin 3) :
    cell.slope ξ derivative (fun v => σ.apply ![v.x, v.y, v.z] a) =
      σ.scale * (σ.rotation a 0 * cell.slope ξ derivative (·.x) +
        σ.rotation a 1 * cell.slope ξ derivative (·.y) +
        σ.rotation a 2 * cell.slope ξ derivative (·.z)) := by
  simp only [derivatives, List.map_cons, List.map_nil, List.sum_cons, List.sum_nil] at h
  simp only [slope, derivatives, vertices, List.zip_cons_cons, List.zip_nil_right,
    List.foldl_cons, List.foldl_nil, Similarity.apply_eq, Fin.sum_univ_three,
    cons_val]
  linear_combination σ.translation a * h

theorem jacobian_map (σ : Similarity K 3) (cell : Hexahedron K) (ξ : Vec3 K) :
    ((cell.map σ.solid).jacobian ξ).toMatrix =
      σ.scale • (σ.rotation * (cell.jacobian ξ).toMatrix) := by
  obtain ⟨hx, hy, hz⟩ := sum_derivatives ξ
  ext a b
  rw [Matrix.smul_apply, mul_apply, Fin.sum_univ_three]
  -- a column holds the slopes along one axis, a row those of one coordinate
  fin_cases b
  · fin_cases a <;> exact cell.slope_apply σ hx _
  · fin_cases a <;> exact cell.slope_apply σ hy _
  · fin_cases a <;> exact cell.slope_apply σ hz _

end Hexahedron

/-! ### Metrics -/

theorem Sym2.toMatrix_map (c : K) (m : Sym2 K) : (m.map (c * ·)).toMatrix = c • m.toMatrix := by
  ext a b
  fin_cases a <;> fin_cases b <;> rfl

theorem Sym3.toMatrix_map (c : K) (m : Sym3 K) : (m.map (c * ·)).toMatrix = c • m.toMatrix := by
  ext a b
  fin_cases a <;> fin_cases b <;> rfl

namespace Metric

/-- The metric of a Jacobian that is rotated and scaled, or its determinant. -/
theorem IsMetric.image {k : Nat} {τ : Type} {tensor : τ → Matrix (Fin (k + 2)) (Fin (k + 2)) K}
    (htensor : ∀ {m m'}, tensor m = tensor m' → m = m') {J J' : Matrix (Fin (k + 2)) (Fin (k + 2)) K}
    {w : K} {result result' : Except K τ} (h : IsMetric tensor J w result)
    (h' : IsMetric tensor J' w result') (σ : Similarity K (k + 2))
    (hJ : J' = σ.scale • (σ.rotation * J)) {scale : τ → τ}
    (hscale : ∀ m, tensor (scale m) = σ.scale ^ k • tensor m) :
    result' = (result.mapError (σ.scale ^ (k + 2) * ·)).map scale := by
  have hdet : J'.det = σ.scale ^ (k + 2) * J.det := by rw [hJ, σ.det_smul_rotation_mul]
  have hpower : 0 < σ.scale ^ (k + 2) := pow_pos σ.scale_pos _
  cases result with
  | error d =>
    obtain ⟨hle, rfl⟩ := (h.error_iff d).mp rfl
    exact (h'.error_iff _).mpr ⟨hdet ▸ mul_nonpos_of_nonneg_of_nonpos hpower.le hle, hdet.symm⟩
  | ok m =>
    have hpos : 0 < J'.det := hdet ▸ mul_pos hpower (h.exists_iff.mp ⟨m, rfl⟩)
    obtain ⟨m', hm'⟩ := h'.exists_iff.mpr hpos
    have hmap : m' = scale m := htensor (by
      rw [h'.tensor_eq hm', hJ, σ.metric_image, hscale, h.tensor_eq rfl])
    rw [hm', hmap]
    rfl

theorem planar_image (σ : Similarity K 2) {j j' : Mat2 K}
    (h : j'.toMatrix = σ.scale • (σ.rotation * j.toMatrix)) (w : K) :
    planar j' w = ((planar j w).mapError (σ.scale ^ 2 * ·)).map (Sym2.map (σ.scale ^ 0 * ·)) :=
  (isMetric_planar j w).image Sym2.toMatrix_inj (isMetric_planar j' w) σ h (Sym2.toMatrix_map _)

theorem solid_image (σ : Similarity K 3) {j j' : Mat3 K}
    (h : j'.toMatrix = σ.scale • (σ.rotation * j.toMatrix)) (w : K) :
    solid j' w = ((solid j w).mapError (σ.scale ^ 3 * ·)).map (Sym3.map (σ.scale ^ 1 * ·)) :=
  (isMetric_solid j w).image Sym3.toMatrix_inj (isMetric_solid j' w) σ h (Sym3.toMatrix_map _)

end Metric

end LowOrderRefinement
