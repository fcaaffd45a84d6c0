import LowOrderRefinement.Proofs.BoxMesh.Corners
import LowOrderRefinement.Proofs.Evaluation.JacobianSources
import LowOrderRefinement.Proofs.Slots.SlotTable

/-! The orientation of sub-cells. The determinant of the Jacobian at a quadrature point is
the signed volume that the edges at one corner of the cell span, where points are
numbered with the first axis fastest and vertices run around the faces. So the metric
terms of a refinement exist exactly when no corner is flat or inverted; a planar cell
is then strictly convex, with its vertices in counter-clockwise order. -/

namespace LowOrderRefinement

variable {K : Type} [ExactField K]

/-! ### Signed areas and volumes -/

def Vec2.to (a b : Vec2 K) : Vec2 K := ⟨b.x - a.x, b.y - a.y⟩

def Vec3.to (a b : Vec3 K) : Vec3 K := ⟨b.x - a.x, b.y - a.y, b.z - a.z⟩

def Vec2.cross (u v : Vec2 K) : K := u.x * v.y - u.y * v.x

def Vec3.cross (u v : Vec3 K) : Vec3 K :=
  ⟨u.y * v.z - u.z * v.y, u.z * v.x - u.x * v.z, u.x * v.y - u.y * v.x⟩

/-- The area of a triangle, which is positive when its vertices run counter-clockwise. -/
def signedArea (a b c : Vec2 K) : K := Scalar.half * (a.to b).cross (a.to c)

theorem signedArea_rotate (a b c : Vec2 K) : signedArea a b c = signedArea b c a := by
  simp only [signedArea, Vec2.cross, Vec2.to]
  ring

namespace Quadrilateral

variable (cell : Quadrilateral K)

def vertex : Fin 4 → Vec2 K := ![cell.v0, cell.v1, cell.v2, cell.v3]

/-- The signed area of the triangle of a vertex and its two neighbours. -/
def turn (i : Fin 4) : K := signedArea (cell.vertex (i - 1)) (cell.vertex i) (cell.vertex (i + 1))

/-- Every vertex that is not on an edge lies strictly to the left of it, as one runs around the
cell. -/
def StrictlyConvex : Prop :=
  ∀ i j : Fin 4, j ≠ i → j ≠ i + 1 → 0 < signedArea (cell.vertex i) (cell.vertex (i + 1))
    (cell.vertex j)

/-- A quadrilateral is strictly convex and counter-clockwise when it turns left at all
vertices. -/
theorem strictlyConvex_iff : cell.StrictlyConvex ↔ ∀ i, 0 < cell.turn i := by
  have hnext (i : Fin 4) : cell.turn (i + 1) =
      signedArea (cell.vertex i) (cell.vertex (i + 1)) (cell.vertex (i + 2)) := by
    rw [turn, add_sub_cancel_right, add_assoc]
    rfl
  have hprevious (i : Fin 4) : cell.turn i =
      signedArea (cell.vertex i) (cell.vertex (i + 1)) (cell.vertex (i - 1)) :=
    signedArea_rotate _ _ _
  constructor
  · intro h i
    rw [hprevious]
    exact h i (i - 1) (by revert i; decide) (by revert i; decide)
  · intro h i j hi hj
    -- beside the ends of an edge there are the vertices after and before it
    obtain rfl | rfl : j = i + 2 ∨ j = i - 1 := by revert i j; decide
    · exact hnext i ▸ h (i + 1)
    · exact hprevious i ▸ h i

/-- The number of the vertex at a corner of the unit square, which is at the lower or at the upper
end of each axis. -/
def vertexAt : Bool → Bool → Fin 4
  | false, false => 0
  | true, false => 1
  | true, true => 2
  | false, true => 3

theorem exists_vertexAt (i : Fin 4) : ∃ a b, vertexAt a b = i := by
  revert i
  decide

def corner (a b : Bool) : Vec2 K := cell.vertex (vertexAt a b)

/-- The cross product of the two edges along the axes at a corner. -/
def cornerArea (a b : Bool) : K :=
  ((cell.corner false b).to (cell.corner true b)).cross
    ((cell.corner a false).to (cell.corner a true))

theorem cornerArea_eq_turn (a b : Bool) : cell.cornerArea a b = 2 * cell.turn (vertexAt a b) := by
  cases a <;> cases b <;>
    simp [cornerArea, corner, turn, vertexAt, vertex, signedArea, ExactField.half_eq, Vec2.cross,
      Vec2.to] <;> ring

end Quadrilateral

namespace Hexahedron

variable (cell : Hexahedron K)

def corner : Bool → Bool → Bool → Vec3 K
  | false, false, false => cell.v0
  | true, false, false => cell.v1
  | true, true, false => cell.v2
  | false, true, false => cell.v3
  | false, false, true => cell.v4
  | true, false, true => cell.v5
  | true, true, true => cell.v6
  | false, true, true => cell.v7

/-- The triple product of the three edges along the axes at a corner. -/
def cornerVolume (a b c : Bool) : K :=
  ((cell.corner false b c).to (cell.corner true b c)).dot
    (((cell.corner a false c).to (cell.corner a true c)).cross
      ((cell.corner a b false).to (cell.corner a b true)))

end Hexahedron

/-! ### Quadrature points -/

namespace Quadrature

/-- The number of the quadrature point at a corner of the square, the first axis fastest. -/
def planarIndex (a b : Bool) : Nat := a.toNat + 2 * b.toNat

def solidIndex (a b c : Bool) : Nat := a.toNat + 2 * b.toNat + 4 * c.toNat

theorem planarIndex_lt (a b : Bool) : planarIndex a b < 4 := by revert a b; decide

theorem solidIndex_lt (a b c : Bool) : solidIndex a b c < 8 := by revert a b c; decide

theorem exists_planarIndex : ∀ q < 4, ∃ a b, planarIndex a b = q := by decide

theorem exists_solidIndex : ∀ q < 8, ∃ a b c, solidIndex a b c = q := by decide

end Quadrature

theorem Quadrilateral.det_jacobian (cell : Quadrilateral K) (a b : Bool) :
    (cell.jacobian (Quadrature.planarPoint (Quadrature.planarIndex a b))).det =
      cell.cornerArea a b := by
  cases a <;> cases b <;>
    simp [jacobian, slopeX, slopeY, Quadrature.planarPoint, Quadrature.planarIndex, Mat2.det,
      cornerArea, corner, vertexAt, vertex, Vec2.cross, Vec2.to] <;> ring

theorem Hexahedron.det_jacobian (cell : Hexahedron K) (a b c : Bool) :
    Metric.solidDet (cell.jacobian (Quadrature.solidPoint (Quadrature.solidIndex a b c))) =
      cell.cornerVolume a b c := by
  let position : List Nat → Vec3 K := fun v =>
    cell.corner (v.getD 0 0 == 1) (v.getD 1 0 == 1) (v.getD 2 0 == 1)
  have hcell : cell = ofCorners position := rfl
  have hjacobian := jacobian_ofCorners position (Quadrature.solidIndex_lt a b c)
  rw [← hcell] at hjacobian
  rw [hjacobian]
  cases a <;> cases b <;> cases c <;>
    simp [position, solidGradient, Quadrature.solidIndex, Metric.solidDet, cornerVolume, Vec3.cross,
      Vec3.dot, Vec3.to] <;> ring

namespace Refinement

variable {r : Refinement K} {dim : Dimension} {options : Options K}

/-- Every Jacobian that is used is that of the vertices. -/
def FromVertices (r : Refinement K) (dim : Dimension) (options : Options K) : Prop :=
  dim = .three ∨ options.planarJacobians = .vertices ∨ r.factors = none ∧ options.verify = none

/-- The signed volume at the corner of a sub-cell that a quadrature point names: the cross product of
the two edges there, and the triple product of the three edges in space. -/
def CornerVolume (r : Refinement K) (dim : Dimension) (s q : Nat) (volume : K) : Prop :=
  match dim with
  | .two => ∃ cell, r.quadrilateral s = .ok cell ∧ ∃ a b, Quadrature.planarIndex a b = q ∧
      volume = cell.cornerArea a b
  | .three => ∃ cell, r.hexahedron s = .ok cell ∧ ∃ a b c, Quadrature.solidIndex a b c = q ∧
      volume = cell.cornerVolume a b c

/-- A quadrilateral turns left at all of its vertices, and the edges at every corner of a hexahedron
span a positive volume. -/
def Oriented (r : Refinement K) (dim : Dimension) (s : Nat) : Prop :=
  match dim with
  | .two => ∃ cell, r.quadrilateral s = .ok cell ∧ ∀ i, 0 < cell.turn i
  | .three => ∃ cell, r.hexahedron s = .ok cell ∧ ∀ a b c, 0 < cell.cornerVolume a b c

/-- A point is refused because of a number unless the number is positive. -/
structure Tests (r : Refinement K) (dim : Dimension) (options : Options K) (s q : Nat)
    (volume : K) : Prop where
  accepted : 0 < volume → ∃ terms, r.pointTerms dim options s q = .ok terms
  refused : ¬0 < volume → r.pointTerms dim options s q =
    .error (.error (.nonPositiveDeterminant (r.embedding s).parent s q volume))

theorem Tests.exists_iff {s q : Nat} {volume : K} (h : r.Tests dim options s q volume) :
    (∃ terms, r.pointTerms dim options s q = .ok terms) ↔ 0 < volume := by
  refine ⟨fun ⟨terms, hterms⟩ => ?_, h.accepted⟩
  by_contra hvolume
  cases hterms.symm.trans (h.refused hvolume)

theorem Tests.of_refused {s q : Nat} {volume : K} (h : r.Tests dim options s q volume)
    {cause : Error K} (hpoint : r.pointTerms dim options s q = .error (.error cause)) :
    cause = .nonPositiveDeterminant (r.embedding s).parent s q volume ∧ volume ≤ 0 := by
  have hvolume : ¬0 < volume := by
    intro hpos
    obtain ⟨terms, hterms⟩ := h.accepted hpos
    cases hterms.symm.trans hpoint
  cases hpoint.symm.trans (h.refused hvolume)
  exact ⟨rfl, not_lt.mp hvolume⟩

theorem FromVertices.planarJacobian_eq (h : r.FromVertices .two options) (cell : Quadrilateral K)
    (s q : Nat) (ξ : Vec2 K) :
    r.planarJacobian options cell s q ξ = .ok (cell.jacobian ξ) := by
  rcases h with h | h | ⟨h, -⟩
  · cases h
  · rw [planarJacobian, h]
  · exact planarJacobian_of_factors h options cell s q ξ

theorem FromVertices.confirms_eq (h : r.FromVertices .two options) (j closedForm : Mat2 K) :
    confirms options j closedForm = true := by
  rcases h with h | h | ⟨-, h⟩
  · cases h
  · rw [confirms, h]
  · exact confirms_of_verify h j closedForm

theorem Tests.of_guarded {σ : Type} {metric : σ} {toList : σ → List K} {s q : Nat} {volume : K}
    (h : r.pointTerms dim options s q = Except.map toList (accept (r.embedding s).parent s q
      (if Scalar.isPos volume then .ok metric else .error volume))) :
    r.Tests dim options s q volume where
  accepted hpos := ⟨_, by rw [h, if_pos (ExactField.isPos_eq_true.mpr hpos)]; rfl⟩
  refused hneg := by
    rw [h, Metric.guarded_eq_error hneg]
    rfl

theorem tests_planar (h : r.FromVertices .two options) {s : Nat} {cell : Quadrilateral K}
    (hcell : r.quadrilateral s = .ok cell) (a b : Bool) :
    r.Tests .two options s (Quadrature.planarIndex a b) (cell.cornerArea a b) := by
  have hpoint := Quadrature.getElem?_square (K := K) (Quadrature.planarIndex_lt a b)
  rw [← cell.det_jacobian]
  exact .of_guarded (pointTerms_two_of_closedForm hcell hpoint (h.planarJacobian_eq cell s _ _)
    (h.confirms_eq _ _))

theorem tests_solid {s : Nat} {cell : Hexahedron K} (hcell : r.hexahedron s = .ok cell)
    (a b c : Bool) :
    r.Tests .three options s (Quadrature.solidIndex a b c) (cell.cornerVolume a b c) := by
  have hpoint := Quadrature.getElem?_cube (K := K) (Quadrature.solidIndex_lt a b c)
  rw [← cell.det_jacobian]
  exact .of_guarded (pointTerms_three hcell hpoint)

omit [ExactField K] in
theorem FromVertices.factorsFit (h : r.FromVertices dim options) : r.FactorsFit dim options := by
  rintro rfl hplanar f hf
  rcases h with h | h | ⟨h, -⟩
  · cases h
  · cases hplanar.symm.trans h
  · cases hf.symm.trans h

/-! ### Whole evaluations -/

/-- Every point is tested by the volume at the corner that it names. -/
theorem FromVertices.exists_volume (h : r.FromVertices dim options) (hr : r.dim = dim.value)
    (hcomplete : r.Complete) {s q : Nat} (hs : s < r.subcells) (hq : q < dim.vertices) :
    ∃ volume, r.CornerVolume dim s q volume ∧ r.Tests dim options s q volume := by
  have hlength := hcomplete s hs
  rw [hr] at hlength
  cases dim with
  | two =>
    obtain ⟨cell, hcell⟩ := Quadrilateral.decodes.exists_ok hlength
    obtain ⟨a, b, rfl⟩ := Quadrature.exists_planarIndex q hq
    exact ⟨_, ⟨cell, hcell, a, b, rfl, rfl⟩, tests_planar h hcell a b⟩
  | three =>
    obtain ⟨cell, hcell⟩ := Hexahedron.decodes.exists_ok hlength
    obtain ⟨a, b, c, rfl⟩ := Quadrature.exists_solidIndex q hq
    exact ⟨_, ⟨cell, hcell, a, b, c, rfl, rfl⟩, tests_solid hcell a b c⟩

/-- No point of a sub-cell is refused exactly when the sub-cell is oriented at all corners. -/
theorem FromVertices.evaluates_iff (h : r.FromVertices dim options) (hr : r.dim = dim.value)
    (hcomplete : r.Complete) {s : Nat} (hs : s < r.subcells) :
    r.Evaluates dim options s ↔ r.Oriented dim s := by
  have hlength := hcomplete s hs
  rw [hr] at hlength
  cases dim with
  | two =>
    obtain ⟨cell, hcell⟩ := Quadrilateral.decodes.exists_ok hlength
    have hcorner (a b : Bool) :
        (∃ terms, r.pointTerms .two options s (Quadrature.planarIndex a b) = .ok terms) ↔
          0 < cell.turn (Quadrilateral.vertexAt a b) := by
      rw [(tests_planar h hcell a b).exists_iff, cell.cornerArea_eq_turn,
        mul_pos_iff_of_pos_left two_pos]
    constructor
    · intro heval
      refine ⟨cell, hcell, fun i => ?_⟩
      obtain ⟨a, b, rfl⟩ := Quadrilateral.exists_vertexAt i
      exact (hcorner a b).mp (heval _ (Quadrature.planarIndex_lt a b))
    · rintro ⟨cell', hcell', hpos⟩ q hq
      obtain rfl := Except.ok.inj (hcell.symm.trans hcell')
      obtain ⟨a, b, rfl⟩ := Quadrature.exists_planarIndex q hq
      exact (hcorner a b).mpr (hpos _)
  | three =>
    obtain ⟨cell, hcell⟩ := Hexahedron.decodes.exists_ok hlength
    constructor
    · intro heval
      refine ⟨cell, hcell, fun a b c => ?_⟩
      exact (tests_solid hcell a b c).exists_iff.mp (heval _ (Quadrature.solidIndex_lt a b c))
    · rintro ⟨cell', hcell', hpos⟩ q hq
      obtain rfl := Except.ok.inj (hcell.symm.trans hcell')
      obtain ⟨a, b, c, rfl⟩ := Quadrature.exists_solidIndex q hq
      exact (tests_solid hcell a b c).exists_iff.mpr (hpos a b c)

/-- When all Jacobians are those of the vertices, an evaluation succeeds exactly when every sub-cell
is oriented at all of its corners, which for a quadrilateral means that it is strictly convex and
counter-clockwise. Otherwise the error names a quadrature point, and its determinant is the signed
volume at the corner with the number of the point; in the plane this is twice the signed area of
the triangle of the vertex there and its neighbours. -/
theorem evaluateMetric_orientation (schedule : Schedule) {order elements : Nat}
    (hr : r.dim = dim.value) (hcovers : r.Covers dim elements (order ^ dim.value))
    (hcomplete : r.Complete) (hvertices : r.FromVertices dim options)
    (hstorable : r.TermsStorable dim order elements options) :
    let result := (r.evaluateMetric schedule order elements options).result
    ((∃ m, result = .ok m) ↔ ∀ s < r.subcells, r.Oriented dim s) ∧
    (∀ cell : Quadrilateral K, (cell.StrictlyConvex ↔ ∀ i, 0 < cell.turn i) ∧
      ∀ a b, cell.cornerArea a b = 2 * cell.turn (Quadrilateral.vertexAt a b)) ∧
    ∀ failure, result = .error failure → ∃ s q volume,
      failure = .error (.nonPositiveDeterminant (r.embedding s).parent s q volume) ∧
      s < r.subcells ∧ r.CornerVolume dim s q volume ∧ volume ≤ 0 := by
  intro result
  obtain ⟨table, htable⟩ := hcovers.exists_slots hstorable
  have hfirst : Outcome.Reports (fun cause => ∃ s q, r.FirstRefused dim options order s q cause)
      result :=
    reports_firstRefused schedule hr htable hvertices.factorsFit
  have hslots : (r.slots dim order elements).Faultless := htable ▸ Outcome.faultless_ok table
  have hfaultless : Outcome.Faultless result :=
    Assembly.faultless_evaluateMetric schedule hr hslots hcomplete hstorable
  refine ⟨⟨fun ⟨m, hm⟩ s hs => ?_, fun horiented => ?_⟩,
    fun cell => ⟨cell.strictlyConvex_iff, cell.cornerArea_eq_turn⟩, fun failure hfailure => ?_⟩
  · exact (hvertices.evaluates_iff hr hcomplete hs).mp (evaluates_of_evaluateMetric hr hm hs)
  · refine hfaultless.exists_of_reports fun cause hcause => ?_
    obtain ⟨s, q, hrefused⟩ := hfirst cause hcause
    have hs := hrefused.subcell_lt
    exact hrefused.not_evaluates ((hvertices.evaluates_iff hr hcomplete hs).mpr (horiented s hs))
  · cases failure with
    | fault c => exact absurd hfailure (hfaultless c)
    | error cause =>
      obtain ⟨s, q, hrefused⟩ := hfirst cause hfailure
      have hs := hrefused.subcell_lt
      obtain ⟨volume, hvolume, htests⟩ :=
        hvertices.exists_volume hr hcomplete hs hrefused.point_lt
      obtain ⟨rfl, hle⟩ := htests.of_refused hrefused.refused
      exact ⟨s, q, volume, rfl, hs, hvolume, hle⟩

/-- A cube with one vertex pushed in past the plane of its three neighbours. -/
def dentedCube : Refinement ℚ :=
  .ofTable 3 #[⟨.hexahedron, ⟨0, 0⟩, [0, 0, 0, 1, 0, 0, 1, 1, 0, 0, 1, 0,
    0, 0, 1, 1, 0, 1, 1 / 4, 1 / 4, 1 / 4, 0, 1, 1]⟩] none

/-- The dented cube is refused at its last point, with the volume at the vertex that is listed
seventh; the second dart is refused at its last point too, where its third vertex is; and two
squares are accepted, since they turn left everywhere. -/
theorem evaluateMetric_orientation_dented :
    (dentedCube.evaluateMetric .inOrder 1 1 (Options.standard.withParallel false)).result =
        .error (.error (.nonPositiveDeterminant 0 0 7 (-(5 / 4)))) ∧
      dentedCube.CornerVolume .three 0 7 (-(5 / 4)) ∧
    (darts.evaluateMetric .inOrder 1 2 (Options.standard.withParallel false)).result =
        .error (.error (.nonPositiveDeterminant 0 1 3 (-(1 / 2)))) ∧
      darts.CornerVolume .two 1 3 (-(1 / 2)) ∧
    ∃ m, (Assembly.twoSquares.evaluateMetric .inOrder 1 2
      (Options.standard.withParallel false)).result = .ok m := by
  have hdented : (dentedCube.evaluateMetric .inOrder 1 1
      (Options.standard.withParallel false)).result.map (fun m => m.entries) =
        .error (.error (.nonPositiveDeterminant 0 0 7 (-(5 / 4)))) := by decide +kernel
  have hdarts : (darts.evaluateMetric .inOrder 1 2
      (Options.standard.withParallel false)).result.map (fun m => m.entries) =
        .error (.error (.nonPositiveDeterminant 0 1 3 (-(1 / 2)))) := by decide +kernel
  have hcube : (dentedCube.slots .three 1 1).isOk = true := by decide +kernel
  have hpair : (darts.slots .two 1 2).isOk = true := by decide +kernel
  have hsquares : (Assembly.twoSquares.slots .two 1 2).isOk = true := by decide +kernel
  obtain ⟨cube, hcube⟩ := exists_of_isOk hcube
  obtain ⟨pair, hpair⟩ := exists_of_isOk hpair
  obtain ⟨squares, hsquares⟩ := exists_of_isOk hsquares
  have hone : dentedCube.Complete := by
    show ∀ s < 1, (dentedCube.vertices s).length = 24
    decide
  have htwo : Assembly.twoSquares.Complete := by
    show ∀ s < 2, (Assembly.twoSquares.vertices s).length = 8
    decide
  have hdented := map_eq_error.mp hdented
  have hdarts := map_eq_error.mp hdarts
  have hstorable : darts.TermsStorable .two 1 2 (Options.standard.withParallel false) :=
    ⟨⟨_, rfl⟩, fun _ _ _ => by decide⟩
  have hstorable' : Assembly.twoSquares.TermsStorable .two 1 2
      (Options.standard.withParallel false) := ⟨⟨_, rfl⟩, fun _ _ _ => by decide⟩
  obtain ⟨-, -, hsolid⟩ := evaluateMetric_orientation .inOrder rfl (slots_spec hcube).covers hone
    (.inl rfl) ⟨⟨_, rfl⟩, fun h => by cases h⟩
  obtain ⟨-, -, hplanar⟩ := evaluateMetric_orientation .inOrder rfl (slots_spec hpair).covers
    complete_darts (.inr (.inr ⟨rfl, rfl⟩)) hstorable
  obtain ⟨hexists, -⟩ := evaluateMetric_orientation .inOrder rfl (slots_spec hsquares).covers htwo
    (.inr (.inr ⟨rfl, rfl⟩)) hstorable'
  obtain ⟨s, q, volume, hcause, -, hvolume, -⟩ := hsolid _ hdented
  obtain ⟨s', q', volume', hcause', -, hvolume', -⟩ := hplanar _ hdarts
  obtain ⟨-, rfl, rfl, rfl⟩ := Error.nonPositiveDeterminant.inj (Failure.error.inj hcause)
  obtain ⟨-, rfl, rfl, rfl⟩ := Error.nonPositiveDeterminant.inj (Failure.error.inj hcause')
  refine ⟨hdented, hvolume, hdarts, hvolume', hexists.mpr ?_⟩
  show ∀ s < 2, Assembly.twoSquares.Oriented .two s
  intro s hs
  interval_cases s
  · exact ⟨_, rfl, by decide +kernel⟩
  · exact ⟨_, rfl, by decide +kernel⟩

end Refinement

end LowOrderRefinement
